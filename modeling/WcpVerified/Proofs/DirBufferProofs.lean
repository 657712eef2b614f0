import WcpVerified.DirBuffer
import WcpVerified.Proofs.RetryProofs
import WcpVerified.Proofs.WalkProofs

/-!
# Proofs: the entries of a directory are read back

The records are read as they were written, whatever was in the buffer before: the walk on its buffer
goes, turn by turn, where the walk on the lists of entries goes.
-/

namespace Wcp

open List ByteImage

/-! ## One record -/

namespace KernelDirent

variable {d : KernelDirent} {ds : List KernelDirent} {buffer : ℕ → UInt8} {ptr : ℕ}

theorem length_bytes (d : KernelDirent) : d.bytes.length = D_NAME_OFFSET + d.name.length + 1 := by
  simp only [bytes, length_append, d.inoAndOff_length, length_cons, length_nil, D_NAME_OFFSET]

theorem length_bytes_le (d : KernelDirent) : d.bytes.length ≤ d.reclen := by
  rw [length_bytes, reclen]
  omega

theorem reclen_pos (d : KernelDirent) : 0 < d.reclen := by
  have hle := d.length_bytes_le
  rw [length_bytes] at hle
  omega

theorem reclen_lt (d : KernelDirent) : d.reclen < 2 ^ 16 := by
  have hle := d.name_le
  rw [reclen, D_NAME_OFFSET]
  omega

/-- The record of an entry is at `ptr`. -/
def At (d : KernelDirent) (buffer : ℕ → UInt8) (ptr : ℕ) : Prop :=
  ∀ i b, d.bytes[i]? = some b → buffer (ptr + i) = b

/-- The records of some entries are in the buffer from `ptr` on. -/
def Records (buffer : ℕ → UInt8) : ℕ → List KernelDirent → Prop
  | _, [] => True
  | ptr, d :: ds => d.At buffer ptr ∧ Records buffer (ptr + d.reclen) ds

theorem write_of_lt {a : ℕ} (h : a < ptr) : write ptr ds buffer a = buffer a := by
  induction ds generalizing ptr buffer with
  | nil => rfl
  | cons d ds ih =>
    rw [write, ih (by omega), store_of_lt h]

/-- What was written is there: a record does not reach into the next one. -/
theorem records_write (ds : List KernelDirent) (buffer : ℕ → UInt8) (ptr : ℕ) :
    Records (write ptr ds buffer) ptr ds := by
  induction ds generalizing ptr buffer with
  | nil => trivial
  | cons d ds ih =>
    refine ⟨fun i b hb => ?_, ih _ _⟩
    have hi : i < d.bytes.length := (List.getElem?_eq_some_iff.mp hb).1
    have hlen := d.length_bytes_le
    rw [write, write_of_lt (by omega), store_of_getElem? hb]

/-! The fields of a record. -/

/-- What is behind `d_ino` and `d_off`. -/
theorem getElem?_bytes (d : KernelDirent) (i : ℕ) : d.bytes[16 + i]? =
    (UInt8.ofNat d.reclen :: UInt8.ofNat (d.reclen / 256) :: UInt8.ofNat d.dType.toNat ::
      (d.name ++ [0]))[i]? := by
  rw [bytes, append_assoc, append_assoc, getElem?_append_right (by rw [d.inoAndOff_length]; omega),
    d.inoAndOff_length, Nat.add_sub_cancel_left]
  rfl

theorem At.reclen (h : d.At buffer ptr) : DirBuffer.dReclen buffer ptr = d.reclen := by
  have hlt := d.reclen_lt
  have hlow := h 16 _ (d.getElem?_bytes 0)
  have hhigh := h 17 _ (d.getElem?_bytes 1)
  rw [DirBuffer.dReclen, hlow, hhigh, UInt8.toNat_ofNat', UInt8.toNat_ofNat']
  omega

theorem dTypeOf_toNat (t : DType) : DirBuffer.dTypeOf (UInt8.ofNat t.toNat).toNat = some t := by
  cases t <;> rfl

theorem At.dType (h : d.At buffer ptr) :
    DirBuffer.dTypeOf (buffer (ptr + 18)).toNat = some d.dType := by
  rw [h 18 _ (d.getElem?_bytes 2)]
  exact dTypeOf_toNat d.dType

theorem cString_eq {name : List UInt8} {room : ℕ} (hnul : 0 ∉ name) (hroom : name.length < room)
    (hname : ∀ i b, name[i]? = some b → buffer (ptr + i) = b)
    (hend : buffer (ptr + name.length) = 0) : DirBuffer.cString buffer room ptr = some name := by
  induction name generalizing room ptr with
  | nil =>
    obtain ⟨room, rfl⟩ := Nat.exists_eq_succ_of_ne_zero (Nat.pos_iff_ne_zero.mp hroom)
    have hend : buffer ptr = 0 := hend
    rw [DirBuffer.cString, if_pos hend]
  | cons b name ih =>
    obtain ⟨room, rfl⟩ := Nat.exists_eq_succ_of_ne_zero (by omega : room ≠ 0)
    have hb : buffer ptr = b := hname 0 b rfl
    rw [mem_cons, not_or] at hnul
    rw [DirBuffer.cString, hb, if_neg (Ne.symm hnul.1), ih hnul.2]
    · rfl
    · rw [length_cons] at hroom
      omega
    · intro i c hc
      rw [show ptr + 1 + i = ptr + (i + 1) by omega]
      exact hname (i + 1) c hc
    · rw [show ptr + 1 + name.length = ptr + (name.length + 1) by omega]
      exact hend

theorem At.name (h : d.At buffer ptr) {room : ℕ} (hroom : d.name.length < room) :
    DirBuffer.cString buffer room (ptr + D_NAME_OFFSET) = some d.name := by
  have hchars : ∀ i b, (d.name ++ [0])[i]? = some b → buffer (ptr + D_NAME_OFFSET + i) = b := by
    intro i b hb
    rw [Nat.add_assoc, show D_NAME_OFFSET + i = 16 + (i + 1 + 1 + 1) by rw [D_NAME_OFFSET]; omega]
    exact h _ b ((d.getElem?_bytes _).trans hb)
  refine cString_eq d.name_nul hroom (fun i b hb => hchars i b ?_) (hchars _ 0 getElem?_concat_length)
  rw [getElem?_append_left (List.getElem?_eq_some_iff.mp hb).1, hb]

/-- A record is read as the entry it was written for. -/
theorem At.currentEntry (h : d.At buffer ptr) (hend : ptr + d.reclen ≤ DIR_BUFFER_SIZE) :
    DirBuffer.currentEntry buffer ptr = some d.toDirent := by
  have hlen := d.length_bytes_le
  rw [length_bytes] at hlen
  rw [DirBuffer.currentEntry, h.dType, h.name (by omega)]
  rfl

end KernelDirent

/-! ## One call of `myGetDents` -/

theorem retryAttempts_map {α β : Type} (g : α → β) (func : ℕ → Except Errno α) (left tries : ℕ)
    (errno : Errno) : retryAttempts (fun k => (func k).map g) left tries errno =
      (retryAttempts func left tries errno).map g := by
  induction left generalizing tries errno with
  | zero => rfl
  | succ left ih =>
    rw [retryAttempts, retryAttempts]
    cases func tries with
    | ok a =>
      have hok : (Except.ok a : Except Errno α).map g = .ok (g a) := rfl
      simp only [hok, ih]
      split
      · rfl
      · split <;> rfl
    | error e =>
      have herror : (Except.error e : Except Errno α).map g = .error e := rfl
      simp only [herror, ih]
      split <;> rfl

namespace DirBuffer

variable {answers : ℕ → Except Errno (List KernelDirent)}

/-- The records of the answer that counts are in the buffer: it is that of the last attempt. -/
theorem records_afterGetDents (buffer : ℕ → UInt8) {ds : List KernelDirent}
    (h : retrySyscall answers = .ok ds) :
    (∃ k, answers k = .ok ds) ∧ KernelDirent.Records (afterGetDents answers buffer) 0 ds := by
  rw [retrySyscall_eq] at h
  split at h
  · have hpos : 0 < attemptsMade answers := Nat.zero_lt_of_lt (lt_retryLoop_succ 4 0 0)
    obtain ⟨n, hn⟩ := Nat.exists_eq_succ_of_ne_zero (Nat.pos_iff_ne_zero.mp hpos)
    have hlast : answers n = .ok ds := by
      rw [hn] at h
      exact h
    have hrange : (retryLoop answers 5 0 0).1 = n + 1 := hn
    refine ⟨⟨n, hlast⟩, ?_⟩
    rw [afterGetDents, hrange, range_succ, foldl_append, foldl_cons, foldl_nil, hlast]
    exact KernelDirent.records_write _ _ _
  · cases h

end DirBuffer

/-! ## The walk -/

namespace Walk

/-- Go on at `pc`, unless an assertion has failed. -/
def resume (pc : WalkPc) (w : WalkState) : WalkState :=
  { w with pc := if w.pc = .aborted then .aborted else pc }

section Entry

variable (fs : FileSystem) (strerror : Errno → List Char)

theorem copyLink_resume (fullPath destPath : Path) (s : WalkState) :
    copyLink fs strerror fullPath destPath s =
      resume s.pc (copyLink fs strerror fullPath destPath { s with pc := .next }) := by
  unfold copyLink
  cases myReadlink strerror fullPath (fs.readlink fullPath) with
  | error e => rfl
  | ok linkDest =>
    dsimp only
    cases retrySyscall (fs.symlink linkDest destPath) <;> rfl

theorem dispatch_resume (fullPath destPath dName : Path) (type : DType) (sb : Option Statx)
    (s : WalkState) : dispatch fs strerror fullPath destPath dName type sb s =
      resume s.pc (dispatch fs strerror fullPath destPath dName type sb { s with pc := .next }) := by
  unfold dispatch
  cases type with
  | dir =>
    dsimp only
    split
    · split <;> rfl
    · rfl
  | reg =>
    cases sb with
    | some sb => rfl
    | none =>
      dsimp only
      cases myStatx strerror fullPath (fs.statx fullPath) <;> rfl
  | lnk => exact copyLink_resume fs strerror fullPath destPath s
  | _ => rfl

/-- The body of the loop over the entries does not look at the program point. -/
theorem walkEntry_resume (fromDir dest current : Path) (entry : Dirent) (s : WalkState) :
    walkEntry fs strerror fromDir dest current entry s =
      resume s.pc (walkEntry fs strerror fromDir dest current entry { s with pc := .next }) := by
  unfold walkEntry
  dsimp only
  cases classify fs strerror (current ++ entry.dName) entry with
  | error e => rfl
  | ok r => exact dispatch_resume fs strerror _ _ _ _ _ s

end Entry

end Walk

namespace BufferWalk

variable {fs : FileSystem} {answers : Path → ℕ → ℕ → Except Errno (List KernelDirent)}
  {strerror : Errno → List Char} {s : BufferWalk} {w : WalkState}

/-- The kernel's answers, as lists of entries. -/
def withDirents (fs : FileSystem) (answers : Path → ℕ → ℕ → Except Errno (List KernelDirent)) :
    FileSystem :=
  { fs with getdents := fun path calls k => (answers path calls k).map (map KernelDirent.toDirent) }

/-- The two walks are at the same point. The records that are left are those of the entries that are
left. -/
inductive SamePc (buffer : ℕ → UInt8) : BufferPc → WalkPc → Prop where
  | next : SamePc buffer .next .next
  | reading {current : Path} {calls written count : ℕ} (hzero : written = 0 ↔ count = 0) :
      SamePc buffer (.reading current calls written) (.reading current calls count)
  | entries {current : Path} {calls written count nextPtr : ℕ} {ds : List KernelDirent}
      (hzero : written = 0 ↔ count = 0) (hrecords : KernelDirent.Records buffer nextPtr ds)
      (hend : nextPtr + KernelDirent.totalBytes ds = written) (hsize : written ≤ DIR_BUFFER_SIZE) :
      SamePc buffer (.entries current calls written nextPtr)
        (.entries current calls count (ds.map KernelDirent.toDirent))
  | done : SamePc buffer .done .done
  | aborted : SamePc buffer .aborted .aborted

/-- The two walks have done the same. -/
structure Same (s : BufferWalk) (w : WalkState) : Prop where
  ops : s.ops = w.ops
  directoryStack : s.directoryStack = w.directoryStack
  pc : SamePc s.dirBuffer s.pc w.pc

theorem samePc_afterBatch {buffer : ℕ → UInt8} {current : Path} {calls written count : ℕ}
    (hzero : written = 0 ↔ count = 0) :
    SamePc buffer (afterBatch current calls written) (Walk.afterBatch current calls count) := by
  unfold afterBatch Walk.afterBatch
  by_cases hw : written = 0
  · rw [if_neg (not_not.mpr hw), if_neg (not_not.mpr (hzero.mp hw))]
    exact .next
  · rw [if_pos hw, if_pos (mt hzero.mpr hw)]
    exact .reading hzero

theorem totalBytes_eq_zero {ds : List KernelDirent} :
    KernelDirent.totalBytes ds = 0 ↔ (ds.map KernelDirent.toDirent).length = 0 := by
  cases ds with
  | nil => exact iff_of_true rfl rfl
  | cons d ds =>
    have hpos := d.reclen_pos
    simp only [KernelDirent.totalBytes, map_cons, sum_cons, length_cons]
    omega

theorem SamePc.done_iff {buffer : ℕ → UInt8} {pc : BufferPc} {pc' : WalkPc}
    (h : SamePc buffer pc pc') : pc = .done ↔ pc' = .done := by
  cases h with
  | done => exact iff_of_true rfl rfl
  | _ => exact iff_of_false (by intro hc; cases hc) (by intro hc; cases hc)

/-- A turn of the loops. -/
theorem step_same (hfits : ∀ path calls k ds, answers path calls k = .ok ds →
      KernelDirent.totalBytes ds ≤ DIR_BUFFER_SIZE) (fromDir dest : Path) (h : Same s w) :
    ∃ s', step fs answers strerror fromDir dest s = some s' ∧
      Same s' (Walk.step (withDirents fs answers) strerror fromDir dest w) := by
  obtain ⟨ops, directoryStack, pc, buffer⟩ := s
  obtain ⟨ops', directoryStack', pc'⟩ := w
  obtain ⟨rfl, rfl, hpc⟩ := h
  cases hpc with
  | next =>
    cases directoryStack with
    | nil => exact ⟨_, rfl, rfl, rfl, .done⟩
    | cons current rest =>
      have hopen : (withDirents fs answers).openDir current = fs.openDir current := rfl
      simp only [step, Walk.step, hopen]
      cases myOpen strerror current { directory := true } (fs.openDir current) with
      | error e => exact ⟨_, rfl, rfl, rfl, .next⟩
      | ok ino => exact ⟨_, rfl, rfl, rfl, .reading Iff.rfl⟩
  | @reading current calls written count hzero =>
    have hmap : retrySyscall ((withDirents fs answers).getdents current calls) =
        (retrySyscall (answers current calls)).map (map KernelDirent.toDirent) :=
      retryAttempts_map _ _ _ _ _
    simp only [step, Walk.step, DirBuffer.myGetDents, myGetDents, hmap]
    cases hres : retrySyscall (answers current calls) with
    | error err => exact ⟨_, rfl, rfl, rfl, samePc_afterBatch hzero⟩
    | ok ds =>
      obtain ⟨⟨k, hk⟩, hrecords⟩ := DirBuffer.records_afterGetDents buffer hres
      exact ⟨_, rfl, rfl, rfl, .entries totalBytes_eq_zero hrecords (Nat.zero_add _)
        (hfits current calls k ds hk)⟩
  | @entries current calls written count nextPtr ds hzero hrecords hend hsize =>
    cases ds with
    | nil =>
      have hstop : ¬ nextPtr < written := by
        rw [← hend]
        exact Nat.lt_irrefl _
      simp only [step, Walk.step, map_nil, if_neg hstop]
      exact ⟨_, rfl, rfl, rfl, samePc_afterBatch hzero⟩
    | cons d ds =>
      obtain ⟨hat, hrest⟩ := hrecords
      have hpos := d.reclen_pos
      have htotal : nextPtr + d.reclen + KernelDirent.totalBytes ds = written := by
        rw [← hend, Nat.add_assoc]
        rfl
      have hlt : nextPtr < written := by omega
      have hentry := hat.currentEntry (by omega)
      simp only [step, Walk.step, map_cons, if_pos hlt, hentry, hat.reclen]
      refine ⟨_, rfl, ?_⟩
      rw [Walk.walkEntry_resume]
      refine ⟨rfl, rfl, ?_⟩
      show SamePc buffer (if (Walk.walkEntry fs strerror fromDir dest current d.toDirent
          ⟨ops, directoryStack, .next⟩).pc = .aborted then .aborted else _)
        (if (Walk.walkEntry fs strerror fromDir dest current d.toDirent
          ⟨ops, directoryStack, .next⟩).pc = .aborted then .aborted else _)
      split
      · exact .aborted
      · exact .entries hzero hrest htotal hsize
  | done => exact ⟨_, rfl, rfl, rfl, .done⟩
  | aborted => exact ⟨_, rfl, rfl, rfl, .aborted⟩

theorem same_addRecursiveCopy (fs : FileSystem) (strerror : Errno → List Char)
    (hfits : ∀ path calls k ds, answers path calls k = .ok ds →
      KernelDirent.totalBytes ds ≤ DIR_BUFFER_SIZE) (fromDir dest : Path) (buffer : ℕ → UInt8) (n : ℕ) :
    ∃ s, addRecursiveCopy fs answers strerror fromDir dest buffer n = some s ∧
      Same s (Walk.addRecursiveCopy (withDirents fs answers) strerror fromDir dest n) := by
  induction n with
  | zero =>
    refine ⟨_, rfl, rfl, rfl, ?_⟩
    show SamePc buffer (if recursiveMkdir fs.mkdir fs.stat64 (Walk.withSlash dest) then _ else _)
      (if recursiveMkdir fs.mkdir fs.stat64 (Walk.withSlash dest) then _ else _)
    split
    · exact .next
    · exact .aborted
  | succ n ih =>
    obtain ⟨s, hs, hsame⟩ := ih
    obtain ⟨s', hs', hsame'⟩ := step_same hfits (Walk.withSlash fromDir) (Walk.withSlash dest) hsame
    refine ⟨s', ?_, ?_⟩
    · rw [addRecursiveCopy, hs]
      exact hs'
    · unfold Walk.addRecursiveCopy
      rw [Function.iterate_succ_apply']
      exact hsame'

/-- For every answer of the kernel that fits into the buffer, whatever the buffer holds before: after
any number of turns, the walk over the bytes has read every record it came to, and it has done exactly
what the walk over the entries has done that the kernel had to report. -/
theorem dirents_read_back (hfits : ∀ path calls k ds, answers path calls k = .ok ds →
      KernelDirent.totalBytes ds ≤ DIR_BUFFER_SIZE) (fromDir dest : Path) (buffer : ℕ → UInt8) (n : ℕ) :
    ∃ s, addRecursiveCopy fs answers strerror fromDir dest buffer n = some s ∧
      s.ops = (Walk.addRecursiveCopy (withDirents fs answers) strerror fromDir dest n).ops ∧
      s.directoryStack =
        (Walk.addRecursiveCopy (withDirents fs answers) strerror fromDir dest n).directoryStack ∧
      (s.pc = .done ↔
        (Walk.addRecursiveCopy (withDirents fs answers) strerror fromDir dest n).pc = .done) := by
  obtain ⟨s, hs, hsame⟩ := same_addRecursiveCopy fs strerror hfits fromDir dest buffer n
  exact ⟨s, hs, hsame.ops, hsame.directoryStack, hsame.pc.done_iff⟩

/-- A regular file with the name `a`. -/
def oneDirent : KernelDirent where
  inoAndOff := List.replicate 16 255
  dType := .reg
  name := [97]
  inoAndOff_length := rfl
  name_nul := by decide
  name_le := by decide

/-- Each directory holds the one file. -/
def oneDirentAnswers (_ : Path) (calls _ : ℕ) : Except Errno (List KernelDirent) :=
  .ok ([[oneDirent]].getD calls [])

theorem fits_oneDirentAnswers (path : Path) (calls k : ℕ) (ds : List KernelDirent)
    (h : oneDirentAnswers path calls k = .ok ds) : KernelDirent.totalBytes ds ≤ DIR_BUFFER_SIZE := by
  rw [← Except.ok.inj h]
  cases calls with
  | zero => decide +kernel
  | succ calls => exact Nat.zero_le _

theorem dirents_read_back_one : ∃ s, addRecursiveCopy (Walk.smallFs fun _ => false) oneDirentAnswers
      (fun _ => []) ['s'] ['d'] (fun _ => 255) 7 = some s ∧ s.pc = .done ∧
    s.ops = [.recursiveMkdir ['d', '/'],
      .addCopyJob (Walk.jobOf ['s', '/', 'a'] ['d', '/', 'a'] ⟨.reg, 5, 4096, 0o100644⟩)] := by
  have hwalk : Walk.addRecursiveCopy (withDirents (Walk.smallFs fun _ => false) oneDirentAnswers)
      (fun _ => []) ['s'] ['d'] 7 = ⟨[.recursiveMkdir ['d', '/'], .addCopyJob
        (Walk.jobOf ['s', '/', 'a'] ['d', '/', 'a'] ⟨.reg, 5, 4096, 0o100644⟩)], [], .done⟩ := by
    decide +kernel
  obtain ⟨s, hs, hops, -, hdone⟩ := @dirents_read_back (Walk.smallFs fun _ => false)
    oneDirentAnswers (fun _ => []) fits_oneDirentAnswers ['s'] ['d'] (fun _ => 255) 7
  rw [hwalk] at hops hdone
  exact ⟨s, hs, hdone.mpr rfl, hops⟩

end BufferWalk

end Wcp
