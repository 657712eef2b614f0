import WcpVerified.Proofs.ChunkProofs
import WcpVerified.Proofs.SubmissionProofs

/-!
# Proofs: the requests of a runner in flight

What the requests and completions of a runner say about it, in any debug mode. A read asks for what
is missing from `readOffset` on; the write that is linked to it runs only when the read has returned
everything that was missing. So a byte is written only after the last byte of the chunk was read.
The source is assumed never to be longer than `N` bytes.
-/

namespace Wcp

open MachineWord Alignment List

/-- The kernel is going to cancel a request. -/
def Cut (chains : List Chain) (e : Sqe) : Prop := ∃ c ∈ chains, c.broken = true ∧ e ∈ c.reqs

namespace CopyRunner

/-- The last byte of the chunk has been read: the runner knows, or it will see it in a completion. -/
def ReadAll (cq : List Cqe) (r : ℕ) (x : CopyRunner) : Prop :=
  x.readOffset = x.chunkEnd ∨ x.savedError = none ∧ x.readOverride = s32Max ∧
    ∃ c ∈ cq, c.tag = (r, .read) ∧ (x.readOffset : ℤ) + c.res = x.chunkEnd

/-- A pending read is the one `submitReadWriteCommands` has planned: of all that is missing, or of
less in a debug mode, in which case no write is linked to it. -/
structure ReadPlan (reqs : List Sqe) (r : ℕ) (x : CopyRunner) (e : Sqe) : Prop where
  op : e.op = .read
  off : e.off = x.readOffset
  addr : e.addr = x.bufferAligned + x.readOffset - x.offset
  error : x.savedError = none
  len : ∃ k, 0 < k ∧ x.readOffset + k ≤ x.chunkEnd ∧ e.len = alignUp x.alignment k ∧
    (x.readOffset + k = x.chunkEnd ∧ x.readOverride = s32Max ∨
      ∀ w ∈ reqs, w.tag = (r, .write) → w.op = .nop)

/-- A pending write writes from `writeOffset` on, or is the nop of a debug mode. -/
def WritePlan (modes : DebugModes) (x : CopyRunner) (e : Sqe) : Prop :=
  e.op = .nop ∧ modes.forcePartialReads = true ∧ x.writeOverride = -ECANCELED ∨
  e.op = .write ∧ e.off = x.writeOffset ∧ e.addr = x.bufferAligned + x.writeOffset - x.offset

/-- What holds of runner `r` and its requests, the source never being longer than `N` bytes. -/
structure Aloft (modes : DebugModes) (N : ℕ) (sq : List Sqe) (chains : List Chain) (cq : List Cqe)
    (r : ℕ) (x : CopyRunner) : Prop where
  lower : x.offset ≤ x.readOffset
  upper : x.readOffset ≤ x.chunkEnd
  aligned : x.alignment ∣ x.readOffset ∨ x.readOffset = x.chunkEnd
  source : x.readOffset ≤ N ∨ x.readOffset = x.offset
  readReq : ∀ e ∈ pendingReqs sq chains, e.tag = (r, .read) →
    x.ReadPlan (pendingReqs sq chains) r e
  readRes : ∀ c ∈ cq, c.tag = (r, .read) → 0 < c.res →
    (x.readOffset : ℤ) + c.res ≤ N ∧ (x.readOffset : ℤ) + c.res ≤ x.chunkEnd
  writeReq : ∀ e ∈ pendingReqs sq chains, e.tag = (r, .write) → x.WritePlan modes e
  lone : ∀ e ∈ pendingReqs sq chains, e.tag = (r, .write) → e.op = .write →
    (∀ e' ∈ pendingReqs sq chains, e'.tag ≠ (r, .read)) → ¬ Cut chains e → x.ReadAll cq r
  ordered : ∀ e ∈ pendingReqs sq chains, e.tag = (r, .read) → ∀ c ∈ cq, c.tag ≠ (r, .write)
  writeRes : ∀ c ∈ cq, c.tag = (r, .write) → 0 ≤ spoof modes x.writeOverride c.res → x.ReadAll cq r
  written : x.offset < x.writeOffset → x.ReadAll cq r
  both : (r, .read) ∈ tags sq chains cq → (r, .write) ∈ tags sq chains cq →
    x.writeOffset = x.offset
  readOverride : x.savedError = none → x.readOverride = s32Max ∨
    modes.forcePartialReads = true ∧ (r, .read) ∈ tags sq chains cq
  writeOverride : x.savedError = none → x.writeOverride = s32Max ∨
    modes.forcePartialReads = true ∧ (r, .write) ∈ tags sq chains cq

/-- The chunk is well shaped, and ends at a multiple of the alignment or not before the source. -/
structure Fits (N : ℕ) (x : CopyRunner) : Prop extends x.Shaped where
  last : x.alignment ∣ x.chunkEnd ∨ N ≤ x.chunkEnd

variable {modes : DebugModes} {N : ℕ} {sq sq' : List Sqe} {chains chains' : List Chain}
  {cq cq' : List Cqe} {r : ℕ} {x : CopyRunner}

theorem ReadAll.mono (h : x.ReadAll cq r)
    (hsub : ∀ c ∈ cq, c.tag = (r, .read) → c ∈ cq') : x.ReadAll cq' r := by
  rcases h with h | ⟨he, ho, c, hc, ht, hres⟩
  · exact .inl h
  · exact .inr ⟨he, ho, c, hsub c hc ht, ht, hres⟩

/-- `readOffset` after a read that stays within the chunk. -/
theorem advanceRead_eq {k : ℕ} (hlow : x.offset ≤ x.readOffset) (hle : x.readOffset + k ≤ x.chunkEnd)
    (hlt : x.size < 2 ^ 32) : x.advanceRead k =
      if x.readOffset + k = x.chunkEnd then x.chunkEnd
      else alignDown x.alignment (x.readOffset + k) := by
  have hsize : x.chunkEnd = x.offset + x.size := rfl
  have hto : toU32 ((x.chunkEnd : ℤ) - (x.readOffset + k : ℕ)) = x.chunkEnd - (x.readOffset + k) := by
    rw [toU32_of_lt (by omega) (by omega)]
    omega
  unfold advanceRead
  dsimp only
  rw [hto]
  by_cases he : x.readOffset + k = x.chunkEnd
  · rw [if_neg (by omega), if_pos he, he]
  · rw [if_pos (by omega), if_neg he]
    rfl

namespace Aloft

/-- A runner without requests. -/
theorem idle (hlow : x.readOffset = x.offset) (hw : x.writeOffset = x.offset)
    (hdvd : x.alignment ∣ x.readOffset ∨ x.readOffset = x.chunkEnd)
    (hro : x.readOverride = s32Max) (hwo : x.writeOverride = s32Max)
    (hno : ∀ t ∈ tags sq chains cq, t.1 ≠ r) : Aloft modes N sq chains cq r x := by
  have hreq : ∀ e ∈ pendingReqs sq chains, ∀ ev, e.tag ≠ (r, ev) := fun e he ev ht =>
    hno e.tag (mem_append_left _ (mem_map_of_mem he)) (by rw [ht])
  have hres : ∀ c ∈ cq, ∀ ev, c.tag ≠ (r, ev) := fun c hc ev ht =>
    hno c.tag (mem_append_right _ (mem_map_of_mem hc)) (by rw [ht])
  exact {
    lower := hlow.ge
    upper := by rw [hlow]; exact Nat.le_add_right _ _
    aligned := hdvd
    source := .inr hlow
    readReq := fun e he ht => absurd ht (hreq e he _)
    readRes := fun c hc ht => absurd ht (hres c hc _)
    writeReq := fun e he ht => absurd ht (hreq e he _)
    lone := fun e he ht => absurd ht (hreq e he _)
    ordered := fun e he ht => absurd ht (hreq e he _)
    writeRes := fun c hc ht => absurd ht (hres c hc _)
    written := fun hlt => absurd hw hlt.ne'
    both := fun ht => absurd rfl (hno _ ht)
    readOverride := fun _ => .inl hro
    writeOverride := fun _ => .inl hwo }

/-- Whether a tag of runner `r` is in use depends only on its own requests. -/
theorem mem_tags_of (hq : ∀ e, e.runner = r → (e ∈ pendingReqs sq' chains' ↔ e ∈ pendingReqs sq chains))
    (hc : ∀ c, c.runner = r → (c ∈ cq' ↔ c ∈ cq)) (ev : EventType) :
    (r, ev) ∈ tags sq' chains' cq' ↔ (r, ev) ∈ tags sq chains cq := by
  simp only [tags, mem_append, mem_map]
  constructor
  · rintro (⟨e, he, ht⟩ | ⟨c, hc', ht⟩)
    · exact .inl ⟨e, (hq e (congrArg Prod.fst ht)).mp he, ht⟩
    · exact .inr ⟨c, (hc c (congrArg Prod.fst ht)).mp hc', ht⟩
  · rintro (⟨e, he, ht⟩ | ⟨c, hc', ht⟩)
    · exact .inl ⟨e, (hq e (congrArg Prod.fst ht)).mpr he, ht⟩
    · exact .inr ⟨c, (hc c (congrArg Prod.fst ht)).mpr hc', ht⟩

/-- What the requests of other runners do is of no concern. -/
theorem frame (h : Aloft modes N sq chains cq r x)
    (hq : ∀ e, e.runner = r → (e ∈ pendingReqs sq' chains' ↔ e ∈ pendingReqs sq chains))
    (hc : ∀ c, c.runner = r → (c ∈ cq' ↔ c ∈ cq))
    (hcut : ∀ e, e.runner = r → Cut chains e → Cut chains' e) :
    Aloft modes N sq' chains' cq' r x := by
  have hreq : ∀ {e ev}, e ∈ pendingReqs sq' chains' → e.tag = (r, ev) → e ∈ pendingReqs sq chains :=
    fun he ht => (hq _ (congrArg Prod.fst ht)).mp he
  have hreq' : ∀ {e ev}, e ∈ pendingReqs sq chains → e.tag = (r, ev) → e ∈ pendingReqs sq' chains' :=
    fun he ht => (hq _ (congrArg Prod.fst ht)).mpr he
  have hres : ∀ {c ev}, c ∈ cq' → c.tag = (r, ev) → c ∈ cq :=
    fun hc' ht => (hc _ (congrArg Prod.fst ht)).mp hc'
  have hall : x.ReadAll cq r → x.ReadAll cq' r := fun h =>
    h.mono fun c hc' ht => (hc c (congrArg Prod.fst ht)).mpr hc'
  have htags := mem_tags_of hq hc
  exact {
    lower := h.lower
    upper := h.upper
    aligned := h.aligned
    source := h.source
    readReq := fun e he ht => by
      obtain ⟨hop, hoff, haddr, herr, k, hk, hle, hlen, hplan⟩ := h.readReq e (hreq he ht) ht
      refine ⟨hop, hoff, haddr, herr, k, hk, hle, hlen, hplan.imp_right fun hn w hw hwt => ?_⟩
      exact hn w (hreq hw hwt) hwt
    readRes := fun c hc' ht => h.readRes c (hres hc' ht) ht
    writeReq := fun e he ht => h.writeReq e (hreq he ht) ht
    lone := fun e he ht hop hno hnc => hall <| h.lone e (hreq he ht) ht hop
      (fun e' he' ht' => hno e' (hreq' he' ht') ht')
      fun hc' => hnc (hcut e (congrArg Prod.fst ht) hc')
    ordered := fun e he ht c hc' htc => h.ordered e (hreq he ht) ht c (hres hc' htc) htc
    writeRes := fun c hc' ht hs => hall (h.writeRes c (hres hc' ht) ht hs)
    written := fun hlt => hall (h.written hlt)
    both := fun h1 h2 => h.both ((htags _).mp h1) ((htags _).mp h2)
    readOverride := fun he => (h.readOverride he).imp_right fun hm => ⟨hm.1, (htags _).mpr hm.2⟩
    writeOverride := fun he => (h.writeOverride he).imp_right fun hm => ⟨hm.1, (htags _).mpr hm.2⟩ }

/-- Requests of other runners are queued. -/
theorem frame_sq (h : Aloft modes N sq chains cq r x) (hq : ∀ e, e.runner = r → (e ∈ sq' ↔ e ∈ sq)) :
    Aloft modes N sq' chains cq r x := by
  refine h.frame (fun e he => ?_) (fun _ _ => Iff.rfl) fun _ _ hc => hc
  rw [pendingReqs, pendingReqs, mem_append, mem_append, hq e he]

/-- A runner that is given its buffer has no requests. -/
theorem giveBuffer (h : Aloft modes N sq chains cq r x) (hx : x.Fresh)
    (hno : ∀ t ∈ tags sq chains cq, t.1 ≠ r) (b : ℕ) :
    Aloft modes N sq chains cq r (x.giveBuffer b) := by
  refine idle hx.read hx.write h.aligned ?_ ?_ hno
  · exact (h.readOverride hx.error).resolve_right fun hm => hno _ hm.2 rfl
  · exact (h.writeOverride hx.error).resolve_right fun hm => hno _ hm.2 rfl

end Aloft

/-! ## A round is submitted -/

/-- What `submitReadWriteCommands` plans to read. -/
theorem plannedRead_spec (modes : DebugModes) (a : ℕ) (hlow : x.offset ≤ x.readOffset)
    (hup : x.readOffset ≤ x.chunkEnd) (hlt : x.size < 2 ^ 32) :
    x.readOffset + (plannedRead modes a x).1 ≤ x.chunkEnd ∧
    ((plannedRead modes a x).1 = 0 → x.readOffset = x.chunkEnd) ∧
    ((plannedRead modes a x).2 = true ↔ x.readOffset + (plannedRead modes a x).1 < x.chunkEnd) ∧
    ((plannedRead modes a x).2 = true → modes.forcePartialReads = true) := by
  have hsize : x.chunkEnd = x.offset + x.size := rfl
  have hto : toU32 ((x.chunkEnd : ℤ) - x.readOffset) = x.chunkEnd - x.readOffset := by
    rw [toU32_of_lt (by omega) (by omega)]
    omega
  unfold plannedRead
  dsimp only
  rw [hto]
  split
  · rename_i hc
    obtain ⟨hmode, hpos⟩ := Bool.and_eq_true_iff.mp hc
    have hmod := Nat.mod_lt a (of_decide_eq_true hpos)
    refine ⟨by omega, fun hz => by omega, ?_, fun _ => hmode⟩
    rw [decide_eq_true_eq]
    omega
  · refine ⟨by omega, fun hz => by omega, ?_, fun hc => ?_⟩
    · rw [decide_eq_true_eq]
      omega
    · rw [decide_eq_true_eq] at hc
      omega

/-- A round that reads less than is missing sets the override of the write. -/
theorem submitted_override {a : ℕ} (hm : modes.forcePartialReads = true)
    (hs : (plannedRead modes a x).2 = true) (hw : x.writeOffset < x.chunkEnd) (count : ℕ) :
    (x.submitted modes a count).writeOverride = -ECANCELED := by
  simp only [submitted, hm, hs, hw, decide_true, Bool.and_self, if_true]

theorem submitted_keep (modes : DebugModes) (a count : ℕ)
    (hs : (plannedRead modes a x).2 = false) :
    (x.submitted modes a count).readOverride = x.readOverride ∧
    (x.submitted modes a count).writeOverride = x.writeOverride := by
  simp only [submitted, hs, Bool.and_false, Bool.false_eq_true, if_false, and_self]

/-- The read of a round. -/
theorem mem_requests_read {a b : ℕ} {src dst : Option Ino} {e : Sqe}
    (he : e ∈ x.requests modes a b src dst r) (ht : e.tag = (r, .read)) :
    e.op = .read ∧ e.fd = src ∧ e.off = x.readOffset ∧
      e.addr = x.bufferAligned + x.readOffset - x.offset ∧
      e.len = alignReadSize x.alignment (plannedRead modes a x).1 ∧ (plannedRead modes a x).1 ≠ 0 := by
  rcases mem_append.mp he with he | he
  · rcases readSqe_cases modes a src r x with hn | ⟨e', hl, -, hop, -, hfd, hoff, haddr, hlen, hne⟩
    · rw [hn] at he
      cases he
    · rw [hl, mem_singleton] at he
      subst he
      exact ⟨hop, hfd, hoff, haddr, hlen, hne⟩
  · rcases writeSqe_cases modes a b dst r x with ⟨hn, -⟩ | ⟨-, e', hl, ht', -⟩
    · rw [hn] at he
      cases he
    · rw [hl, mem_singleton] at he
      subst he
      rw [ht'] at ht
      cases ht

/-- The write of a round. -/
theorem mem_requests_write {a b : ℕ} {src dst : Option Ino} {e : Sqe}
    (he : e ∈ x.requests modes a b src dst r) (ht : e.tag = (r, .write)) :
    (e.op = .nop ∧ modes.forcePartialReads = true ∧ (plannedRead modes a x).2 = true) ∨
    (e.op = .write ∧ e.fd = dst ∧ e.off = x.writeOffset ∧
      e.addr = x.bufferAligned + x.writeOffset - x.offset ∧
      ¬ (modes.forcePartialReads = true ∧ (plannedRead modes a x).2 = true)) := by
  rcases mem_append.mp he with he | he
  · rcases readSqe_cases modes a src r x with hn | ⟨e', hl, ht', -⟩
    · rw [hn] at he
      cases he
    · rw [hl, mem_singleton] at he
      subst he
      rw [ht'] at ht
      cases ht
  · rcases writeSqe_cases modes a b dst r x with ⟨hn, -⟩ | ⟨-, e', hl, -, -, hop⟩
    · rw [hn] at he
      cases he
    · rw [hl, mem_singleton] at he
      subst he
      exact hop.imp (fun h => ⟨h.1, h.2.2.1, h.2.2.2⟩) fun h => ⟨h.1, h.2.1, h.2.2.1, h.2.2.2.1, h.2.2.2.2.2⟩

/-- A round with something to read has a read. -/
theorem read_mem_requests {a : ℕ} (b : ℕ) (src dst : Option Ino) (r : ℕ)
    (h : (plannedRead modes a x).1 ≠ 0) :
    ∃ e ∈ x.requests modes a b src dst r, e.tag = (r, .read) := by
  have hl : readSqe modes a src r x = [_] := if_pos h
  exact ⟨_, mem_append_left _ (hl ▸ mem_singleton_self _), rfl⟩

/-- A round with something to write has a write. -/
theorem write_mem_requests (modes : DebugModes) (a b : ℕ) (src dst : Option Ino) (r : ℕ)
    (h : x.writeOffset < x.chunkEnd) : ∃ e ∈ x.requests modes a b src dst r, e.tag = (r, .write) := by
  rcases writeSqe_cases modes a b dst r x with ⟨-, hle⟩ | ⟨-, e, hl, ht, -⟩
  · omega
  · exact ⟨e, mem_append_right _ (hl ▸ mem_singleton_self e), ht⟩

namespace Aloft

theorem batch {a b count : ℕ} {src dst : Option Ino} (h : Aloft modes N sq chains cq r x)
    (hfit : x.Fits N) (hx : x.Resumable) (hlow : x.offset ≤ x.writeOffset)
    (hno : ∀ t ∈ tags sq chains cq, t.1 ≠ r) :
    Aloft modes N (sq ++ x.requests modes a b src dst r) chains cq r (x.submitted modes a count) := by
  have hlt : x.size < 2 ^ 32 := hfit.size_lt.trans (by norm_num)
  obtain ⟨hle, hzero, hshort, hmode⟩ := plannedRead_spec modes a h.lower h.upper hlt
  have hmem : ∀ {e ev}, e ∈ pendingReqs (sq ++ x.requests modes a b src dst r) chains →
      e.tag = (r, ev) → e ∈ x.requests modes a b src dst r := by
    intro e ev he ht
    simp only [pendingReqs, append_assoc, mem_append] at he
    rcases he with he | he | he
    · exact absurd (congrArg Prod.fst ht) (hno _ (mem_append_left _ (mem_map_of_mem (mem_append_left _ he))))
    · exact he
    · exact absurd (congrArg Prod.fst ht) (hno _ (mem_append_left _ (mem_map_of_mem (mem_append_right _ he))))
  have hnew : ∀ {e}, e ∈ x.requests modes a b src dst r →
      e ∈ pendingReqs (sq ++ x.requests modes a b src dst r) chains :=
    fun he => mem_append_left _ (mem_append_right _ he)
  have htag : ∀ {e ev}, e ∈ x.requests modes a b src dst r → e.tag = (r, ev) →
      (r, ev) ∈ tags (sq ++ x.requests modes a b src dst r) chains cq :=
    fun he ht => ht ▸ mem_append_left _ (mem_map_of_mem (hnew he))
  have hres : ∀ c ∈ cq, ∀ ev, c.tag ≠ (r, ev) := fun c hc ev ht =>
    hno c.tag (mem_append_right _ (mem_map_of_mem hc)) (congrArg Prod.fst ht)
  -- the runner has no completion, so it knows what it has read
  have hknown : x.ReadAll cq r → x.readOffset = x.chunkEnd := by
    rintro (hr | ⟨-, -, c, hc, ht, -⟩)
    · exact hr
    · exact absurd ht (hres c hc _)
  have hro : x.readOverride = s32Max :=
    (h.readOverride hx.error).resolve_right fun hm => hno _ hm.2 rfl
  have hwo : x.writeOverride = s32Max :=
    (h.writeOverride hx.error).resolve_right fun hm => hno _ hm.2 rfl
  exact {
    lower := h.lower
    upper := h.upper
    aligned := h.aligned
    source := h.source
    readReq := fun e he ht => by
      obtain ⟨hop, -, hoff, haddr, hlen, hne⟩ := mem_requests_read (hmem he ht) ht
      have hup : alignUp x.alignment (plannedRead modes a x).1 ≤ alignUp x.alignment x.size := by
        refine alignUp_mono hfit.align_pos ?_
        have hlow := h.lower
        simp only [chunkEnd] at hle
        omega
      rw [alignReadSize_eq (hup.trans_lt (hfit.lt.trans (by norm_num)))] at hlen
      refine ⟨hop, hoff, haddr, hx.error, _, Nat.pos_of_ne_zero hne, hle, hlen, ?_⟩
      by_cases hs : (plannedRead modes a x).2 = true
      · refine .inr fun w hw hwt => ?_
        rcases mem_requests_write (hmem hw hwt) hwt with hnop | ⟨-, -, -, -, hnot⟩
        · exact hnop.1
        · exact absurd ⟨hmode hs, hs⟩ hnot
      · refine .inl ⟨?_, ?_⟩
        · have := hshort.not.mp hs
          show x.readOffset + _ = x.chunkEnd
          omega
        · rw [(submitted_keep modes a count (by simpa using hs)).1]
          exact hro
    readRes := fun c hc ht => absurd ht (hres c hc _)
    writeReq := fun e he ht => by
      rcases mem_requests_write (hmem he ht) ht with ⟨hop, hm, hs⟩ | ⟨hop, -, hoff, haddr, -⟩
      · exact .inl ⟨hop, hm, submitted_override hm hs hx.write count⟩
      · exact .inr ⟨hop, hoff, haddr⟩
    lone := fun e he ht hop hno' hcut => by
      refine .inl (hzero ?_)
      by_contra hne
      obtain ⟨e', he', ht'⟩ := read_mem_requests b src dst r hne
      exact hno' e' (hnew he') ht'
    ordered := fun e he ht c hc => hres c hc _
    writeRes := fun c hc ht => absurd ht (hres c hc _)
    written := fun hlt => .inl (hknown (h.written hlt))
    both := fun hr _ => by
      by_contra hne
      have hall := hknown (h.written (lt_of_le_of_ne hlow (Ne.symm hne)))
      rcases mem_append.mp hr with hr | hr
      · obtain ⟨e, he, ht⟩ := mem_map.mp hr
        have := (mem_requests_read (hmem he ht) ht).2.2.2.2.2
        omega
      · obtain ⟨c, hc, ht⟩ := mem_map.mp hr
        exact hres c hc _ ht
    readOverride := fun _ => by
      cases hs : (plannedRead modes a x).2 with
      | false => exact .inl ((submitted_keep modes a count hs).1.trans hro)
      | true =>
        have hne : (plannedRead modes a x).1 ≠ 0 := fun hz => by
          have := hshort.mp hs
          have := hzero hz
          omega
        obtain ⟨e, he, ht⟩ := read_mem_requests b src dst r hne
        exact .inr ⟨hmode hs, htag he ht⟩
    writeOverride := fun _ => by
      cases hs : (plannedRead modes a x).2 with
      | false => exact .inl ((submitted_keep modes a count hs).2.trans hwo)
      | true =>
        obtain ⟨e, he, ht⟩ := write_mem_requests modes a b src dst r hx.write
        exact .inr ⟨hmode hs, htag he ht⟩ }

end Aloft

/-! ## A completion is seen -/

theorem spoof_max (modes : DebugModes) (result : ℤ) : spoof modes s32Max result = result := by
  simp [spoof]

variable {strerror : Errno → List Char} {src dst : Path} {i : ℕ} {c : Cqe}

/-- A completion that finds no saved error. -/
theorem onCompletionEvent_of_none (hx : x.savedError = none) (ev : EventType) (res : ℤ) :
    x.onCompletionEvent strerror modes src dst ev res = match ev with
      | .read => { x with jobsRunning := x.jobsRunning - 1 }.onRead strerror modes src res
      | .write => { x with jobsRunning := x.jobsRunning - 1 }.onWrite strerror modes dst res := by
  unfold onCompletionEvent
  exact if_neg (by simp [hx])

namespace Aloft

/-- Where a completed read leaves `readOffset`. -/
theorem read_position {k : ℕ} (h : Aloft modes N sq chains cq r x) (hsize : x.size < 2 ^ 32)
    (hk : 0 < k → x.readOffset + k ≤ N ∧ x.readOffset + k ≤ x.chunkEnd) :
    x.offset ≤ x.advanceRead k ∧ x.advanceRead k ≤ x.chunkEnd ∧
      (x.alignment ∣ x.advanceRead k ∨ x.advanceRead k = x.chunkEnd) ∧
      (x.advanceRead k ≤ N ∨ x.advanceRead k = x.offset) ∧
      (x.readOffset + k = x.chunkEnd → x.advanceRead k = x.chunkEnd) := by
  have hlow := h.lower
  have hup := h.upper
  have hE : x.offset ≤ x.chunkEnd := Nat.le_add_right _ _
  have hle : x.readOffset + k ≤ x.chunkEnd := by
    rcases Nat.eq_zero_or_pos k with rfl | hpos
    · exact hup
    · exact (hk hpos).2
  rw [advanceRead_eq hlow hle hsize]
  split
  · rename_i he
    refine ⟨hE, le_rfl, .inr rfl, ?_, fun _ => rfl⟩
    rcases Nat.eq_zero_or_pos k with rfl | hpos
    · exact h.source.imp (fun hs => by omega) fun hs => by omega
    · exact .inl (he ▸ (hk hpos).1)
  · rename_i he
    have hdvd : x.alignment ∣ x.readOffset := by
      rcases h.aligned with hd | hd
      · exact hd
      · omega
    have hge : x.readOffset ≤ alignDown x.alignment (x.readOffset + k) :=
      le_alignDown hdvd (Nat.le_add_right _ _)
    have hdown := alignDown_le x.alignment (x.readOffset + k)
    refine ⟨hlow.trans hge, hdown.trans hle, .inl (dvd_alignDown _ _), ?_, fun hc => absurd hc he⟩
    rcases Nat.eq_zero_or_pos k with rfl | hpos
    · rw [Nat.add_zero, alignDown_of_dvd hdvd]
      exact h.source
    · exact .inl (hdown.trans (hk hpos).1)

/-! The completion at position `i` of `cq` is taken away; no other request of the runner has its
tag. -/

section Seen

variable {runners : Store CopyRunner} {n : ℕ} {b : Bool}

theorem mem_eraseIdx_of_ne (hc : cq[i]? = some c) {d : Cqe} (hd : d ∈ cq) (hne : d.tag ≠ c.tag) :
    d ∈ cq.eraseIdx i := by
  obtain ⟨hi, hget⟩ := List.getElem?_eq_some_iff.mp hc
  have hperm : cq ~ c :: cq.eraseIdx i := hget ▸ (getElem_cons_eraseIdx_perm hi).symm
  rcases mem_cons.mp (hperm.mem_iff.mp hd) with rfl | hd
  · exact absurd rfl hne
  · exact hd

theorem not_mem_tags (hring : RingInv runners sq chains cq n b) (hc : cq[i]? = some c) :
    c.tag ∉ tags sq chains (cq.eraseIdx i) :=
  (nodup_cons.mp ((tags_completion sq chains hc).nodup_iff.mp hring.nodup)).1

theorem mem_tags_iff (hc : cq[i]? = some c) {t : ℕ × EventType} (ht : t ≠ c.tag) :
    t ∈ tags sq chains (cq.eraseIdx i) ↔ t ∈ tags sq chains cq := by
  rw [(tags_completion sq chains hc).mem_iff, mem_cons]
  exact (or_iff_right ht).symm

/-- A runner that has saved an error only counts the completion. -/
theorem completion_failed (h : Aloft modes N sq chains cq r x) (hx : x.savedError.isSome = true)
    (i : ℕ) {y : CopyRunner} (hy : y = { x with jobsRunning := x.jobsRunning - 1 }) :
    Aloft modes N sq chains (cq.eraseIdx i) r y := by
  subst hy
  have hne : x.savedError ≠ none := by
    rintro hn
    rw [hn] at hx
    cases hx
  have hsub : ∀ {d : Cqe}, d ∈ cq.eraseIdx i → d ∈ cq := mem_of_mem_eraseIdx
  have htags : ∀ {t}, t ∈ tags sq chains (cq.eraseIdx i) → t ∈ tags sq chains cq := by
    intro t ht
    rcases mem_append.mp ht with ht | ht
    · exact mem_append_left _ ht
    · exact mem_append_right _ (((cq.eraseIdx_sublist i).map Cqe.tag).subset ht)
  have hall : x.ReadAll cq r → x.readOffset = x.chunkEnd := by
    rintro (hr | ⟨hn, -⟩)
    · exact hr
    · exact absurd hn hne
  exact {
    lower := h.lower
    upper := h.upper
    aligned := h.aligned
    source := h.source
    readReq := fun e he ht => absurd (h.readReq e he ht).error hne
    readRes := fun d hd => h.readRes d (hsub hd)
    writeReq := h.writeReq
    lone := fun e he ht hop hno hcut => .inl (hall (h.lone e he ht hop hno hcut))
    ordered := fun e he ht d hd => h.ordered e he ht d (hsub hd)
    writeRes := fun d hd ht hs => .inl (hall (h.writeRes d (hsub hd) ht hs))
    written := fun hlt => .inl (hall (h.written hlt))
    both := fun hr hw => h.both (htags hr) (htags hw)
    readOverride := fun hn => absurd hn hne
    writeOverride := fun hn => absurd hn hne }

theorem completion_read (h : Aloft modes N sq chains cq r x)
    (hring : RingInv runners sq chains cq n b) (hsize : x.size < 2 ^ 32) (hx : x.savedError = none)
    (hc : cq[i]? = some c) (ht : c.tag = (r, .read)) :
    Aloft modes N sq chains (cq.eraseIdx i) r
      ({ x with jobsRunning := x.jobsRunning - 1 }.onRead strerror modes src c.res) := by
  have hmem : c ∈ cq := mem_of_getElem? hc
  have hgone : (r, .read) ∉ tags sq chains (cq.eraseIdx i) := ht ▸ not_mem_tags hring hc
  have hres : ∀ d ∈ cq.eraseIdx i, d.tag ≠ (r, .read) := fun d hd htd =>
    hgone (htd ▸ mem_append_right _ (mem_map_of_mem hd))
  have hreq : ∀ e ∈ pendingReqs sq chains, e.tag ≠ (r, .read) := fun e he hte =>
    hring.req_ne_res he hmem (hte.trans ht.symm)
  have hwrite : (r, EventType.write) ≠ c.tag := by
    rw [ht]
    nofun
  -- the result that is reported is not better than the real one
  set result := spoof modes x.readOverride c.res with hresult
  have hspoof : 0 ≤ c.res → result ≤ c.res := spoof_le modes x.readOverride c.res
  have hneg : c.res < 0 → result = c.res := spoof_neg modes x.readOverride c.res
  have hstep : 0 < result.toNat → x.readOffset + result.toNat ≤ N ∧
      x.readOffset + result.toNat ≤ x.chunkEnd := by
    intro hpos
    have hle : result ≤ c.res := by
      by_cases h0 : 0 ≤ c.res
      · exact hspoof h0
      · exact (hneg (by omega)).le
    have := h.readRes c hmem ht (by omega)
    omega
  obtain ⟨hlow, hup, hal, hsrc, hend⟩ := h.read_position hsize hstep
  have hall : x.ReadAll cq r → (if result < 0 then x.readOffset else x.advanceRead result.toNat) =
      x.chunkEnd := by
    rintro (hr | ⟨-, ho, d, hd, htd, hE⟩)
    · split
      · exact hr
      · refine hend ?_
        rcases Nat.eq_zero_or_pos result.toNat with hz | hpos
        · omega
        · have := hstep hpos
          omega
    · -- the completion that has been waited for
      have hdc : d = c := hring.res_inj hd hmem (htd.trans ht.symm)
      subst hdc
      have hup := h.upper
      rw [ho, spoof_max] at hresult
      rw [if_neg (by omega)]
      exact hend (by omega)
  have hpos : ∀ P : ℕ → Prop, P x.readOffset → P (x.advanceRead result.toNat) →
      P (if result < 0 then x.readOffset else x.advanceRead result.toNat) := by
    intro P h1 h2
    split
    · exact h1
    · exact h2
  exact {
    lower := hpos (x.offset ≤ ·) h.lower hlow
    upper := hpos (· ≤ x.chunkEnd) h.upper hup
    aligned := hpos (fun p => x.alignment ∣ p ∨ p = x.chunkEnd) h.aligned hal
    source := hpos (fun p => p ≤ N ∨ p = x.offset) h.source hsrc
    readReq := fun e he hte => absurd hte (hreq e he)
    readRes := fun d hd htd => absurd htd (hres d hd)
    writeReq := h.writeReq
    lone := fun e he hte hop hno hcut => .inl (hall (h.lone e he hte hop hno hcut))
    ordered := fun e he hte => absurd hte (hreq e he)
    writeRes := fun d hd htd hs => .inl (hall (h.writeRes d (mem_of_mem_eraseIdx hd) htd hs))
    written := fun hlt => .inl (hall (h.written hlt))
    both := fun hr => absurd hr hgone
    readOverride := fun _ => by
      left
      show (if modes.forcePartialReads then s32Max else x.readOverride) = s32Max
      split
      · rfl
      · rename_i hm
        exact (h.readOverride hx).resolve_right fun hf => hm hf.1
    writeOverride := fun _ => (h.writeOverride hx).imp_right fun hm =>
      ⟨hm.1, (mem_tags_iff hc hwrite).mpr hm.2⟩ }

theorem completion_write (h : Aloft modes N sq chains cq r x)
    (hring : RingInv runners sq chains cq n b) (hx : x.savedError = none)
    (hc : cq[i]? = some c) (ht : c.tag = (r, .write)) :
    Aloft modes N sq chains (cq.eraseIdx i) r
      ({ x with jobsRunning := x.jobsRunning - 1 }.onWrite strerror modes dst c.res) := by
  have hmem : c ∈ cq := mem_of_getElem? hc
  have hgone : (r, .write) ∉ tags sq chains (cq.eraseIdx i) := ht ▸ not_mem_tags hring hc
  have hres : ∀ d ∈ cq.eraseIdx i, d.tag ≠ (r, .write) := fun d hd htd =>
    hgone (htd ▸ mem_append_right _ (mem_map_of_mem hd))
  have hreq : ∀ e ∈ pendingReqs sq chains, e.tag ≠ (r, .write) := fun e he hte =>
    hring.req_ne_res he hmem (hte.trans ht.symm)
  have hread : (r, EventType.read) ≠ c.tag := by
    rw [ht]
    nofun
  set result := spoof modes x.writeOverride c.res with hresult
  have hsaved : 0 ≤ result → writeError strerror dst result = none := fun h0 =>
    if_neg fun hn => absurd hn.1 (by omega)
  -- the completion of the read is still there, if it was
  have hkeep : 0 ≤ result ∨ x.offset < x.writeOffset → x.ReadAll cq r →
      ({ x with jobsRunning := x.jobsRunning - 1 }.onWrite strerror modes dst c.res).ReadAll
        (cq.eraseIdx i) r := by
    rintro hcase (hr | ⟨-, ho, d, hd, htd, hE⟩)
    · exact .inl hr
    · refine .inr ⟨hsaved ?_, ho, d, mem_eraseIdx_of_ne hc hd ?_, htd, hE⟩
      · refine hcase.resolve_right fun hlt => ?_
        have := h.both (htd ▸ mem_append_right _ (mem_map_of_mem hd))
          (ht ▸ mem_append_right _ (mem_map_of_mem hmem))
        omega
      · rw [htd]
        exact hread
  exact {
    lower := h.lower
    upper := h.upper
    aligned := h.aligned
    source := h.source
    readReq := fun e he hte => absurd ht (h.ordered e he hte c hmem)
    readRes := fun d hd => h.readRes d (mem_of_mem_eraseIdx hd)
    writeReq := fun e he hte => absurd hte (hreq e he)
    lone := fun e he hte => absurd hte (hreq e he)
    ordered := fun e he hte => absurd ht (h.ordered e he hte c hmem)
    writeRes := fun d hd htd => absurd htd (hres d hd)
    written := fun hlt => by
      by_cases h0 : 0 ≤ result
      · exact hkeep (.inl h0) (h.writeRes c hmem ht h0)
      · have hlt : x.offset < if result < 0 then x.writeOffset else x.writeOffset + result.toNat := hlt
        rw [if_pos (by omega)] at hlt
        exact hkeep (.inr hlt) (h.written hlt)
    both := fun _ hw => absurd hw hgone
    readOverride := fun _ => (h.readOverride hx).imp_right fun hm =>
      ⟨hm.1, (mem_tags_iff hc hread).mpr hm.2⟩
    writeOverride := fun _ => by
      left
      show (if modes.forcePartialReads then s32Max else x.writeOverride) = s32Max
      split
      · rfl
      · rename_i hm
        exact (h.writeOverride hx).resolve_right fun hf => hm hf.1 }

/-- A completion is handed to its runner. -/
theorem completion (h : Aloft modes N sq chains cq c.runner x)
    (hring : RingInv runners sq chains cq n b) (hsize : x.size < 2 ^ 32) (hc : cq[i]? = some c) :
    Aloft modes N sq chains (cq.eraseIdx i) c.runner
      (x.onCompletionEvent strerror modes src dst c.event c.res) := by
  by_cases hx : x.savedError = none
  · rw [onCompletionEvent_of_none hx]
    cases hev : c.event with
    | read => exact h.completion_read hring hsize hx hc (by rw [Cqe.tag, hev])
    | write => exact h.completion_write hring hx hc (by rw [Cqe.tag, hev])
  · have hx : x.savedError.isSome = true := Option.isSome_iff_ne_none.mpr hx
    refine h.completion_failed hx i ?_
    unfold onCompletionEvent
    exact if_pos hx

end Seen

end Aloft

end CopyRunner

/-! ## The kernel completes a request -/

theorem mem_set_of_ne {α : Type*} {l : List α} {i : ℕ} {a b d : α} (hi : l[i]? = some b) (hd : d ∈ l)
    (hne : d ≠ b) : d ∈ l.set i a := by
  obtain ⟨j, hj⟩ := mem_iff_getElem?.mp hd
  refine mem_iff_getElem?.mpr ⟨j, ?_⟩
  rw [getElem?_set_ne, hj]
  rintro rfl
  rw [hi] at hj
  exact hne (Option.some.inj hj).symm

/-- A request that is going to be cancelled stays so until it is. -/
theorem Cut.set {chains : List Chain} {i : ℕ} {c c' : Chain} {e e₀ : Sqe} {rest : List Sqe}
    (h : Cut chains e) (hi : chains[i]? = some c) (hc : c.reqs = e₀ :: rest) (hc' : c'.reqs = rest)
    (hb : c.broken = true → c'.broken = true) (hne : e ≠ e₀) : Cut (chains.set i c') e := by
  obtain ⟨d, hd, hdb, he⟩ := h
  by_cases hdc : d = c
  · subst hdc
    have hlt : i < chains.length := (List.getElem?_eq_some_iff.mp hi).1
    rw [hc] at he
    exact ⟨c', mem_set hlt c', hb hdb, hc' ▸ (mem_cons.mp he).resolve_left hne⟩
  · exact ⟨d, mem_set_of_ne hi hd hdc, hdb, he⟩

namespace CopyQueue

open CopyRunner

variable {cfg : Config} {s s' : State} {l : Label} {modes : DebugModes} {N r i : ℕ} {x : CopyRunner}
  {chain chain' : Chain} {e₀ : Sqe} {rest : List Sqe} {res : ℤ}

/-- How the kernel completes the first request of a chain. -/
structure Completes (st : Storage) (chain chain' : Chain) (e : Sqe) (rest : List Sqe) (res : ℤ) :
    Prop where
  reqs : chain.reqs = e :: rest
  left : chain'.reqs = rest
  how : (chain.broken = true ∧ res = -ECANCELED ∧ chain'.broken = true) ∨
    (chain.broken = false ∧ e.mayReturn st res = true ∧ chain'.broken = !e.succeeded res)

theorem Completes.broken {st : Storage} (h : Completes st chain chain' e₀ rest res) :
    chain.broken = true → chain'.broken = true := by
  intro hb
  rcases h.how with ⟨-, -, hb'⟩ | ⟨hn, -⟩
  · exact hb'
  · rw [hb] at hn
    cases hn

/-- A read completes. Either it was in full, or the write after it is going to be cancelled. -/
theorem aloft_read (h : Aloft modes N s.sq s.chains s.cq r x) (hring : State.Ring s)
    (hsub : Submitted s) (hfit : 0 < x.size → x.Fits N) (hi : s.chains[i]? = some chain)
    (hk : Completes s.storage chain chain' e₀ rest res) (ht : e₀.tag = (r, .read))
    (hring' : RingInv s.runners s.sq (s.chains.set i chain') (s.cq ++ [⟨e₀.runner, e₀.event, res⟩])
      s.submissionsRunning s.submit.inEvent)
    (hread : chain.broken = false → e₀.op = .read → res ≤ (N - e₀.off : ℕ)) :
    Aloft modes N s.sq (s.chains.set i chain') (s.cq ++ [⟨e₀.runner, e₀.event, res⟩]) r x := by
  have hpend := pendingReqs_kernel s.sq hi hk.reqs hk.left
  have hmem₀ : e₀ ∈ pendingReqs s.sq s.chains := hpend.mem_iff.mpr mem_cons_self
  have hsubset : ∀ {e}, e ∈ pendingReqs s.sq (s.chains.set i chain') →
      e ∈ pendingReqs s.sq s.chains := fun he => hpend.mem_iff.mpr (mem_cons_of_mem _ he)
  have htags : ∀ t, t ∈ tags s.sq (s.chains.set i chain') (s.cq ++ [⟨e₀.runner, e₀.event, res⟩]) ↔
      t ∈ tags s.sq s.chains s.cq := fun t => (tags_kernel hi hk.reqs hk.left).mem_iff
  have hnew : (⟨e₀.runner, e₀.event, res⟩ : Cqe) ∈ s.cq ++ [⟨e₀.runner, e₀.event, res⟩] :=
    mem_append_right _ (mem_singleton_self _)
  have hgone : ∀ e ∈ pendingReqs s.sq (s.chains.set i chain'), e.tag ≠ (r, .read) :=
    fun e he hte => hring'.req_ne_res he hnew (hte.trans ht.symm)
  obtain ⟨hop, hoff, -, herr, k, hkpos, hle, hlen, hplan⟩ := h.readReq e₀ hmem₀ ht
  have hsize : 0 < x.size := by
    have := h.lower
    simp only [chunkEnd] at hle
    omega
  have hfit := hfit hsize
  have hdvd : x.alignment ∣ x.readOffset := h.aligned.resolve_right (by omega)
  have hbound : 0 ≤ res → chain.broken = false ∧ res ≤ e₀.len ∧ res ≤ (N - x.readOffset : ℕ) := by
    intro h0
    rcases hk.how with ⟨-, hcan, -⟩ | ⟨hb, hret, -⟩
    · rw [hcan, ECANCELED] at h0
      omega
    · refine ⟨hb, ?_, hoff ▸ hread hb hop⟩
      unfold Sqe.mayReturn at hret
      rw [hop] at hret
      dsimp only at hret
      split at hret
      · simp only [Bool.or_false, decide_eq_true_eq] at hret
        omega
      · simp only [Bool.or_eq_true, Bool.and_eq_true, decide_eq_true_eq] at hret
        omega
  -- the file ends where the chunk does, or the rounded length does
  have hinside : 0 < res → (x.readOffset : ℤ) + res ≤ N ∧ (x.readOffset : ℤ) + res ≤ x.chunkEnd := by
    intro hpos
    obtain ⟨-, hl, hN⟩ := hbound hpos.le
    refine ⟨by omega, ?_⟩
    rcases hfit.last with hd | hd
    · have : alignUp x.alignment k ≤ x.chunkEnd - x.readOffset :=
        alignUp_le (Nat.dvd_sub hd hdvd) (by omega)
      omega
    · omega
  have hmono : x.ReadAll s.cq r → x.ReadAll (s.cq ++ [⟨e₀.runner, e₀.event, res⟩]) r :=
    fun ha => ha.mono fun c hc _ => mem_append_left _ hc
  have hold : ∀ {c ev}, c ∈ s.cq ++ [⟨e₀.runner, e₀.event, res⟩] → c.tag = (r, ev) → ev = .write →
      c ∈ s.cq := by
    intro c ev hc htc hw
    rcases mem_append.mp hc with hc | hc
    · exact hc
    · rw [mem_singleton.mp hc] at htc
      have : e₀.tag = (r, ev) := htc
      rw [ht, hw] at this
      cases this
  have hchain' : chain' ∈ s.chains.set i chain' :=
    mem_set (List.getElem?_eq_some_iff.mp hi).1 chain'
  have hpair : ∃ w l, rest = w :: l ∧ w.event = .write ∧ w.runner = e₀.runner := by
    have hp := hsub.chains chain (mem_of_getElem? hi)
    rw [hk.reqs] at hp
    cases hp with
    | single hw =>
      rw [Sqe.tag, hw] at ht
      cases ht
    | pair _ _ hw _ hs => exact ⟨_, _, rfl, hw, hs⟩
  exact {
    lower := h.lower
    upper := h.upper
    aligned := h.aligned
    source := h.source
    readReq := fun e he hte => absurd hte (hgone e he)
    readRes := fun c hc htc hpos => by
      rcases mem_append.mp hc with hc | hc
      · exact absurd (ht.trans htc.symm) (hring.req_ne_res hmem₀ hc)
      · rw [mem_singleton.mp hc] at hpos ⊢
        exact hinside hpos
    writeReq := fun e he => h.writeReq e (hsubset he)
    lone := fun e he hte hope _ hcut => by
      obtain ⟨w, l, hrest, hwev, hwr⟩ := hpair
      have hw : e = w := by
        refine hring.req_inj (hsubset he) (hpend.mem_iff.mpr (mem_cons_of_mem _ ?_)) (hte.trans ?_)
        · exact mem_append_right _ (mem_flatMap.mpr ⟨chain', hchain', by simp [hk.left, hrest]⟩)
        · have hr : e₀.runner = r := congrArg Prod.fst ht
          rw [Sqe.tag, hwev, hwr, hr]
      have hwhole : chain'.broken = false := by
        by_contra hb
        exact hcut ⟨chain', hchain', by simpa using hb, by simp [hk.left, hrest, hw]⟩
      rcases hk.how with ⟨-, -, hb⟩ | ⟨-, -, hb⟩
      · rw [hb] at hwhole
        cases hwhole
      · rw [hb, Bool.not_eq_false', Sqe.succeeded, hop] at hwhole
        have hres : res = e₀.len := by simpa using hwhole
        rcases hplan with ⟨hend, hro⟩ | hnop
        · have hge := le_alignUp hfit.align_pos k
          have := (hinside (by omega)).2
          exact .inr ⟨herr, hro, _, hnew, ht, by dsimp only; omega⟩
        · rw [hnop e (hsubset he) hte] at hope
          cases hope
    ordered := fun e he hte => absurd hte (hgone e he)
    writeRes := fun c hc htc hs => hmono (h.writeRes c (hold hc htc rfl) htc hs)
    written := fun hlt => hmono (h.written hlt)
    both := fun h1 h2 => h.both ((htags _).mp h1) ((htags _).mp h2)
    readOverride := fun he => (h.readOverride he).imp_right fun hm => ⟨hm.1, (htags _).mpr hm.2⟩
    writeOverride := fun he => (h.writeOverride he).imp_right fun hm => ⟨hm.1, (htags _).mpr hm.2⟩ }

/-- A write that the kernel may execute is the write of a chunk that was read to its end. -/
theorem readAll_of_head (h : Aloft modes N s.sq s.chains s.cq r x) (hring : State.Ring s)
    (hsub : Submitted s) (hc : chain ∈ s.chains) (hb : chain.broken = false)
    (hreqs : chain.reqs = e₀ :: rest) (ht : e₀.tag = (r, .write)) (hop : e₀.op = .write) :
    x.ReadAll s.cq r := by
  have hmem : e₀ ∈ pendingReqs s.sq s.chains :=
    mem_append_right _ (mem_flatMap.mpr ⟨chain, hc, by simp [hreqs]⟩)
  refine h.lone e₀ hmem ht hop (fun e he hte => ?_) ?_
  · refine read_before_write hring hsub hc hreqs (congrArg Prod.snd ht) e he
      (congrArg Prod.snd hte) ?_
    exact (congrArg Prod.fst hte).trans (congrArg Prod.fst ht).symm
  · rintro ⟨c, hc', hcb, hec⟩
    by_cases hcc : c = chain
    · rw [hcc, hb] at hcb
      cases hcb
    · exact (not_mem_of_head hring hc hreqs rfl).2.2 c hc' hcc hec

/-- A write, or a nop in its place, completes. -/
theorem aloft_write (h : Aloft modes N s.sq s.chains s.cq r x) (hring : State.Ring s)
    (hsub : Submitted s) (hi : s.chains[i]? = some chain)
    (hk : Completes s.storage chain chain' e₀ rest res) (ht : e₀.tag = (r, .write))
    (hring' : RingInv s.runners s.sq (s.chains.set i chain') (s.cq ++ [⟨e₀.runner, e₀.event, res⟩])
      s.submissionsRunning s.submit.inEvent) :
    Aloft modes N s.sq (s.chains.set i chain') (s.cq ++ [⟨e₀.runner, e₀.event, res⟩]) r x := by
  have hpend := pendingReqs_kernel s.sq hi hk.reqs hk.left
  have hmem₀ : e₀ ∈ pendingReqs s.sq s.chains := hpend.mem_iff.mpr mem_cons_self
  have hsubset : ∀ {e}, e ∈ pendingReqs s.sq (s.chains.set i chain') →
      e ∈ pendingReqs s.sq s.chains := fun he => hpend.mem_iff.mpr (mem_cons_of_mem _ he)
  have htags : ∀ t, t ∈ tags s.sq (s.chains.set i chain') (s.cq ++ [⟨e₀.runner, e₀.event, res⟩]) ↔
      t ∈ tags s.sq s.chains s.cq := fun t => (tags_kernel hi hk.reqs hk.left).mem_iff
  have hnew : (⟨e₀.runner, e₀.event, res⟩ : Cqe) ∈ s.cq ++ [⟨e₀.runner, e₀.event, res⟩] :=
    mem_append_right _ (mem_singleton_self _)
  have hgone : ∀ e ∈ pendingReqs s.sq (s.chains.set i chain'), e.tag ≠ (r, .write) :=
    fun e he hte => hring'.req_ne_res he hnew (hte.trans ht.symm)
  have hev : e₀.event = .write := congrArg Prod.snd ht
  have hnoread : ∀ e ∈ pendingReqs s.sq s.chains, e.tag ≠ (r, .read) := by
    intro e he hte
    refine read_before_write hring hsub (mem_of_getElem? hi) hk.reqs hev e he
      (congrArg Prod.snd hte) ?_
    exact (congrArg Prod.fst hte).trans (congrArg Prod.fst ht).symm
  have hmono : x.ReadAll s.cq r → x.ReadAll (s.cq ++ [⟨e₀.runner, e₀.event, res⟩]) r :=
    fun ha => ha.mono fun c hc _ => mem_append_left _ hc
  have hran : 0 ≤ spoof modes x.writeOverride res → x.ReadAll s.cq r := by
    intro h0
    rcases hk.how with ⟨-, hcan, -⟩ | ⟨hb, hret, -⟩
    · rw [hcan, spoof_neg modes x.writeOverride _ (by rw [ECANCELED]; omega), ECANCELED] at h0
      omega
    · rcases h.writeReq e₀ hmem₀ ht with ⟨hop, hm, hwo⟩ | ⟨hop, -⟩
      · -- the nop of a debug mode is reported as cancelled
        unfold Sqe.mayReturn at hret
        rw [hop] at hret
        have hres : res = 0 := by simpa using hret
        rw [hres, hwo] at h0
        simp [spoof, hm, ECANCELED, s32Max] at h0
      · exact readAll_of_head h hring hsub (mem_of_getElem? hi) hb hk.reqs ht hop
  exact {
    lower := h.lower
    upper := h.upper
    aligned := h.aligned
    source := h.source
    readReq := fun e he hte => absurd hte (hnoread e (hsubset he))
    readRes := fun c hc htc => by
      rcases mem_append.mp hc with hc | hc
      · exact h.readRes c hc htc
      · rw [mem_singleton.mp hc] at htc
        have : e₀.tag = (r, .read) := htc
        rw [ht] at this
        cases this
    writeReq := fun e he hte => absurd hte (hgone e he)
    lone := fun e he hte => absurd hte (hgone e he)
    ordered := fun e he hte => absurd hte (hnoread e (hsubset he))
    writeRes := fun c hc htc hs => by
      rcases mem_append.mp hc with hc | hc
      · exact hmono (h.writeRes c hc htc hs)
      · rw [mem_singleton.mp hc] at hs
        exact hmono (hran hs)
    written := fun hlt => hmono (h.written hlt)
    both := fun h1 h2 => h.both ((htags _).mp h1) ((htags _).mp h2)
    readOverride := fun he => (h.readOverride he).imp_right fun hm => ⟨hm.1, (htags _).mpr hm.2⟩
    writeOverride := fun he => (h.writeOverride he).imp_right fun hm => ⟨hm.1, (htags _).mpr hm.2⟩ }

/-- The kernel completes a request of any runner. -/
theorem aloft_kernel {storage : Storage} {cqe : Cqe} (h : Aloft modes N s.sq s.chains s.cq r x)
    (hring : State.Ring s) (hsub : Submitted s) (hfit : 0 < x.size → x.Fits N)
    (hi : s.chains[i]? = some chain)
    (hc : chain.complete s.storage res = some (chain', storage, cqe))
    (hread : ∀ e rest, chain.reqs = e :: rest → e.runner = r → chain.broken = false →
      e.op = .read → res ≤ (N - e.off : ℕ)) :
    Aloft modes N s.sq (s.chains.set i chain') (s.cq ++ [cqe]) r x := by
  have hring' := hring.kernel hi hc
  obtain ⟨e₀, rest, hreqs, hreqs', rfl, hhow⟩ := Chain.complete_spec hc
  have hk : Completes s.storage chain chain' e₀ rest res := by
    refine ⟨hreqs, hreqs', hhow.imp (fun h => ⟨h.1, h.2.1, h.2.2.2⟩) fun h => ⟨h.1, h.2.1, h.2.2.2⟩⟩
  by_cases hr : e₀.runner = r
  · subst hr
    cases hev : e₀.event with
    | read =>
      rw [← hev]
      exact aloft_read h hring hsub hfit hi hk (by rw [Sqe.tag, hev]) hring' (hread e₀ rest hreqs rfl)
    | write =>
      rw [← hev]
      exact aloft_write h hring hsub hi hk (by rw [Sqe.tag, hev]) hring'
  · have hpend := pendingReqs_kernel s.sq hi hreqs hreqs'
    have hne : ∀ {e : Sqe}, e.runner = r → e ≠ e₀ := fun he hc => hr (hc ▸ he)
    refine h.frame (fun e he => ?_) (fun c hc => ?_) fun e he hcut => ?_
    · rw [hpend.mem_iff, mem_cons]
      exact (or_iff_right (hne he)).symm
    · rw [mem_append, mem_singleton]
      exact or_iff_left fun hcc => hr (by rw [← hc, hcc])
    · exact hcut.set hi hreqs hreqs' hk.broken (hne he)

/-! ## The runs that copy one file -/

/-- The steps of the runs in which file number `i` is `job`, its source is never found to be longer
than `N` bytes, and `io_uring_submit` accepts whatever is queued. -/
structure Copies (i : ℕ) (job : Job) (N : ℕ) (s : State) (l : Label) : Prop where
  accepts : AcceptsAll s l
  job : ∀ job', l = .addCopyJob job' → s.files.next = i → job' = job
  reads : ∀ c res chain e rest x, l = .kernel c res → s.chains[c]? = some chain →
    chain.broken = false → chain.reqs = e :: rest → e.op = .read →
    s.runners.get? e.runner = some x → x.file = i → res ≤ (N - e.off : ℕ)

variable {job : Job}

/-- File number `i` is `job`. -/
def IsFile (i : ℕ) (job : Job) (s : State) : Prop := ∀ f, s.files.get? i = some f → f.job = job

theorem isFile_move (hm : Move cfg s l s')
    (hjob : ∀ job', l = .addCopyJob job' → s.files.next = i → job' = job) (h : IsFile i job s) :
    IsFile i job s' := by
  have hback : ∀ {files : Store JobFiles}, (∀ j f', files.get? j = some f' →
      ∃ f, s.files.get? j = some f ∧ f'.job = f.job) →
      ∀ f', files.get? i = some f' → f'.job = job := by
    intro files hf f' hf'
    obtain ⟨f, hf, hj⟩ := hf i f' hf'
    rw [hj, h f hf]
  cases hm with
  | addCopyJob =>
    intro f hf
    rcases Store.of_get?_push hf with ⟨hi, rfl⟩ | ⟨-, hf⟩
    · exact hjob _ rfl hi.symm
    · exact h f hf
  | ctorOpened | ctorFailed | opened | openFailed | close | notify =>
    exact hback (job_modify (modifyFd_job _ _))
  | beginParts | deleteShared => exact hback (job_modify fun _ => rfl)
  | deleteLast => exact hback job_erase
  | _ => exact h

theorem reachIn_isFile {ok : State → Label → Prop}
    (hok : ∀ s l, ok s l → ∀ job', l = .addCopyJob job' → s.files.next = i → job' = job)
    (h : (system cfg).ReachIn ok s) : IsFile i job s := by
  refine h.invariant ?_ fun s l s' _ hs hc hstep => isFile_move (step_move hstep).2 (hok s l hc) hs
  rintro s ⟨storage, rfl⟩
  exact fun f hf => by cases hf

/-- The chunk of a runner of the file. -/
theorem isPart_of_file (hsh : State.SharedFiles cfg s) (hch : Chunked cfg s) (hf : IsFile i job s)
    (hx : s.runners.get? r = some x) (hi : x.file = i) :
    IsPart cfg job ⟨x.offset, x.size, x.alignment⟩ := by
  obtain ⟨f, hf'⟩ := hsh.live r x hx
  exact hf f (hi ▸ hf') ▸ hch r x f hx hf'

theorem IsPart.fits (h : IsPart cfg job ⟨x.offset, x.size, x.alignment⟩)
    (hacc : Accepted cfg.heap job) (hN : N ≤ job.stxSize) (hpos : 0 < x.size) : x.Fits N := by
  have hs : job.stxSize ≠ 0 := fun hz => by
    have hz : x.size = 0 := h.size_eq_zero_iff.mpr hz
    omega
  have hshape := h.shaped hacc hs x.file 0
  refine { pow := hshape.pow, dvd := hshape.dvd, pos := hpos, lt := hshape.lt, last := ?_ }
  rcases h.end_dvd hacc hs with hd | he
  · exact .inl hd
  · exact .inr (hN.trans (ge_of_eq he))

/-- The runners of file `i` and their requests. -/
def Flight (cfg : Config) (i N : ℕ) (s : State) : Prop :=
  ∀ r x, s.runners.get? r = some x → x.file = i → Aloft cfg.modes N s.sq s.chains s.cq r x

theorem flight_move (hm : Move cfg s l s') (hc : Copies i job N s l) (hacc : Accepted cfg.heap job)
    (hN : N ≤ job.stxSize) (hring : State.Ring s) (hown : State.Owned s) (hsub : Submitted s)
    (hsh : State.SharedFiles cfg s) (hch : Chunked cfg s) (hf : IsFile i job s)
    (h : Flight cfg i N s) : Flight cfg i N s' := by
  have hfits : ∀ {r x}, s.runners.get? r = some x → x.file = i → 0 < x.size → x.Fits N :=
    fun hx hi => (isPart_of_file hsh hch hf hx hi).fits hacc hN
  have hsize : ∀ {r x}, s.runners.get? r = some x → x.file = i → x.size < 2 ^ 32 := by
    intro r x hx hi
    rcases Nat.eq_zero_or_pos x.size with hz | hpos
    · rw [hz]
      norm_num
    · exact (hfits hx hi hpos).size_lt.trans (by norm_num)
  cases hm with
  | @partPush f job' p hm =>
    intro r x hx hi
    rcases Store.of_get?_push hx with ⟨rfl, rfl⟩ | ⟨-, hx⟩
    · obtain ⟨hpart, f', hf', hjob⟩ := hsh.part f job' p (by rw [hm]; rfl)
      have hi : f = i := hi
      subst hi
      have hjob : job' = job := hjob.symm.trans (hf f' hf')
      subst hjob
      refine .idle rfl rfl ?_ rfl rfl fun t ht hn => ?_
      · by_cases hz : job'.stxSize = 0
        · rw [hpart.of_empty hz]
          exact .inr rfl
        · exact .inl (hpart.shaped hacc hz f 0).dvd
      · obtain ⟨y, hy⟩ := hring.live t ht
        rw [hn] at hy
        exact absurd (Store.lt_next hy) (lt_irrefl _)
    · exact h r x hx hi
  | @takeGive n r b rest x f hp hs hr =>
    intro j y hy hi
    obtain ⟨x', hx', ⟨rfl, rfl⟩ | ⟨-, rfl⟩⟩ := Store.exists_of_get?_modify hy
    · have hfresh := hown.fresh j (by rw [hs]; exact mem_cons_self) x' hx'
      exact (h j x' hx' hi).giveBuffer hfresh (hring.not_mem hx' hfresh.jobs) b
    · exact h j y hx' hi
  | @batch n r a b x f sqes hp hr hf' hj he =>
    subst he
    intro j y hy hi
    obtain ⟨x', hx', ⟨rfl, rfl⟩ | ⟨hne, rfl⟩⟩ := Store.exists_of_get?_modify hy
    · have hres := hown.hand j (by rw [hp]; rfl) x' hx'
      rw [hp] at hres
      rw [hr] at hx'
      cases hx'
      have hw := hring.written j x hr
      have hpos : 0 < x.size := by
        have := hres.write
        simp only [chunkEnd] at this
        omega
      exact (h j x hr hi).batch (hfits hr hi hpos) hres hw.1 (hring.not_mem hr hj)
    · refine (h j y hx' hi).frame_sq fun e he => ?_
      rw [mem_append]
      refine or_iff_left fun hmem => hne ?_
      have htag := requests_tags.subset (mem_map_of_mem (f := Sqe.tag) hmem)
      have : e.runner = r := by
        simp only [mem_cons, not_mem_nil, or_false, Sqe.tag, Prod.mk.injEq] at htag
        exact htag.elim And.left And.left
      rw [← he, this]
  | @submit n k =>
    intro j y hy hi
    refine (h j y hy hi).frame (fun e _ => (pendingReqs_submit s.sq s.chains k).mem_iff)
      (fun _ _ => Iff.rfl) fun e _ hcut => ?_
    obtain ⟨c, hc, hb⟩ := hcut
    exact ⟨c, mem_append_left _ hc, hb⟩
  | deleteShared | deleteLast => exact fun r x hx => h r x (Store.of_get?_erase hx).2
  | @completion j c x y f hp hcq hr =>
    intro k z hz hi
    obtain ⟨x', hx', ⟨rfl, rfl⟩ | ⟨hne, rfl⟩⟩ := Store.exists_of_get?_modify hz
    · have hi' : x'.file = i := onCompletionEvent_same.file ▸ hi
      rw [hr] at hx'
      cases hx'
      exact (h c.runner x hr hi').completion hring (hsize hr hi') hcq
    · refine (h k z hx' hi).frame (fun _ _ => Iff.rfl) (fun d hd => ?_) fun _ _ hc => hc
      refine ⟨mem_of_mem_eraseIdx, fun hmem => Aloft.mem_eraseIdx_of_ne hcq hmem fun ht => hne ?_⟩
      rw [← hd]
      exact congrArg Prod.fst ht
  | kernel hi hk =>
    intro r x hx hxi
    refine aloft_kernel (h r x hx hxi) hring hsub (hfits hx hxi) hi hk ?_
    intro e rest hreqs her hb hop
    exact hc.reads _ _ _ e rest x rfl hi hb hreqs hop (her ▸ hx) hxi
  | _ => exact h

theorem reachIn_flight (hacc : Accepted cfg.heap job) (hN : N ≤ job.stxSize)
    (h : (system cfg).ReachIn (Copies i job N) s) : Flight cfg i N s := by
  refine h.invariant ?_ fun s l s' hr hs hc hstep => flight_move (step_move hstep).2 hc hacc hN
    (reachable_ring hr) (reachable_owned hr).1 (reachIn_submitted (hr.mono fun _ _ hc => hc.accepts))
    (reachable_sharedFiles hr) (reachable_chunked hr) (reachIn_isFile (fun _ _ hc => hc.job) hr) hs
  rintro s ⟨storage, rfl⟩
  exact fun r x hx => by cases hx

end CopyQueue

end Wcp
