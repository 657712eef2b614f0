import WcpVerified.Proofs.WalkStepProofs

/-!
# Proofs: entries reported without their type

An entry whose `d_type` is unknown is classified by `statx`, which follows links. For everything but a
link the answer is the type of the entry, and the walk does the same as if the type were reported. A
link is never classified as one, so it is never made at the destination.
-/

namespace Wcp

open List

namespace Walk

variable {fs fs₀ : FileSystem} {strerror : Errno → List Char} {fromDir dest : Path}
  {unknown : Path → Bool} {es : List Entry}

/-! ## The link of a tree -/

/-- An entry of a tree is an entry of one of its directories. -/
theorem holds_of_mem {path : Path} (h : Holds fs unknown path es) : ∀ pre, path = fromDir ++ pre →
    pre = [] ∨ IsDir pre → ∀ re ∈ Entry.pathsAll pre es, ∃ pre' es', re.1 = pre' ++ re.2.name ∧
      re.2 ∈ es' ∧ Holds fs unknown (fromDir ++ pre') es' ∧ (pre' = [] ∨ IsDir pre') := by
  induction h with
  | @mk path es batches hopens hreads hne hall hdots hvalid hnames hans hdirs ih =>
    rintro pre rfl hpre re hre
    rw [Entry.pathsAll_eq_flatMap] at hre
    obtain ⟨e, he, hre⟩ := mem_flatMap.mp hre
    rw [paths_eq] at hre
    rcases mem_cons.mp hre with rfl | hre
    · exact ⟨pre, es, rfl, he, .mk hopens hreads hne hall hdots hvalid hnames hans hdirs, hpre⟩
    · cases e with
      | dir name es' =>
        exact ih name es' he (pre ++ name ++ ['/']) (by simp) (.inr ⟨pre ++ name, rfl⟩) re hre
      | reg | link | other => exact absurd hre not_mem_nil

/-- What is reported for the name of an entry is the record of that entry. -/
theorem listed_of_holds {path : Path} (h : Holds fs unknown path es) {e : Entry} (he : e ∈ es)
    {d : Dirent} (hd : Listed fs path d) (hname : d.dName = e.name) :
    d = direntOf unknown (path ++ e.name) e.dType e.name := by
  cases h with
  | mk hopens hreads hne hall hdots hvalid hnames hans hdirs =>
    rename_i batches
    obtain ⟨strerror, k, ds, hds, hmem⟩ := hd
    rw [myGetDents_ok (hreads k)] at hds
    have hrec : d ∈ records unknown path es := by
      rw [← hall.mem_iff, mem_flatten]
      refine ⟨batches.getD k [], ?_, by rwa [Except.ok.inj hds]⟩
      rw [getD_eq_getElem?_getD]
      cases hk : batches[k]? with
      | none =>
        rw [← Except.ok.inj hds, getD_eq_getElem?_getD, hk] at hmem
        exact absurd hmem not_mem_nil
      | some b => exact mem_of_getElem? hk
    rcases mem_cons.mp hrec with rfl | hrec
    · exact absurd hname.symm (hvalid e he).dot
    · rcases mem_cons.mp hrec with rfl | hrec
      · exact absurd hname.symm (hvalid e he).dotdot
      · obtain ⟨e', he', rfl⟩ := mem_map.mp hrec
        rw [inj_on_of_nodup_map hnames he' he hname]

theorem split_eq {path path' name name' : Path} (hp : IsDir path) (hp' : IsDir path')
    (hn : '/' ∉ name) (hn' : '/' ∉ name') (h : path ++ name = path' ++ name') :
    path = path' ∧ name = name' := by
  have hparent : path = path' := by
    rw [← parentDir_append hp hn, ← parentDir_append hp' hn', h]
  subst hparent
  exact ⟨rfl, append_cancel_left h⟩

/-- A directory below the source. -/
def Below (fromDir path : Path) : Prop := ∃ pre, path = fromDir ++ pre ∧ (pre = [] ∨ IsDir pre)

theorem Below.sub {current : Path} (h : Below fromDir current) (name : Path) :
    Below fromDir (current ++ name ++ ['/']) := by
  obtain ⟨pre, rfl, -⟩ := h
  exact ⟨pre ++ name ++ ['/'], by simp, .inr ⟨pre ++ name, rfl⟩⟩

theorem typeOfMode_eq_lnk {kind : FileKind} (h : typeOfMode kind = .lnk) : kind = .lnk := by
  cases kind <;> first | rfl | cases h

/-- A link that is reported without its type is not taken for a link: `statx` follows it. -/
theorem not_takenFor_lnk (strerror : Errno → List Char) (hfrom : IsDir fromDir)
    (hnames : PlainNames fs) (h : Holds fs unknown fromDir es) {rel name target : Path}
    (hmem : (rel, Entry.link name target) ∈ Entry.pathsAll [] es)
    (hu : unknown (fromDir ++ rel) = true) {current : Path} (hb : Below fromDir current) {d : Dirent}
    (hd : Listed fs current d) (hrel : current ++ d.dName = fromDir ++ rel) :
    ¬ TakenFor fs strerror current d .lnk := by
  obtain ⟨pre, es', hpath, he, hholds, hpre⟩ :=
    holds_of_mem h [] (append_nil _).symm (.inl rfl) _ hmem
  change rel = pre ++ name at hpath
  change Entry.link name target ∈ es' at he
  have hv : ValidName name ∧ Answers fs (fromDir ++ pre ++ name) (.link name target) := by
    cases hholds with
    | mk _ _ _ _ _ hvalid _ hans _ => exact ⟨hvalid _ he, hans _ he⟩
  have hplain : '/' ∉ d.dName := by
    obtain ⟨k, i, ds, hds, hmem⟩ := hd.reported
    exact hnames current k i ds hds d hmem
  -- the entry is the link itself
  obtain ⟨pre', rfl, hpre'⟩ := hb
  have hsplit : fromDir ++ pre' = fromDir ++ pre ∧ d.dName = name := by
    refine split_eq (hfrom.append hpre') (hfrom.append hpre) hplain hv.1.slash ?_
    rw [hrel, hpath, append_assoc]
  obtain ⟨hpp, hnn⟩ := hsplit
  rw [hpp] at hd hrel
  have htype : d.dType = .unknown := by
    have hlink := hrel ▸ hu
    rw [hnn] at hlink
    rw [listed_of_holds hholds he hd hnn]
    exact if_pos hlink
  -- its type is that of what it points to
  rintro ⟨sb, hc⟩
  rcases classify_eq_ok hc with ⟨hne, -, -⟩ | ⟨-, st, k, hk, hlnk, -⟩
  · exact hne htype
  · rw [hpp, hnn] at hk
    exact hv.2.2 k st hk (typeOfMode_eq_lnk hlnk.symm)

/-- Nor is it made at the destination. -/
theorem unmade_of_unknown (strerror : Errno → List Char) (dest : Path) (hnames : PlainNames fs)
    (h : Holds fs unknown (withSlash fromDir) es) {rel name target : Path}
    (hmem : (rel, Entry.link name target) ∈ Entry.pathsAll [] es)
    (hu : unknown (withSlash fromDir ++ rel) = true) (n : ℕ) (target' : Path) :
    .symlink target' (withSlash dest ++ rel) ∉ (addRecursiveCopy fs strerror fromDir dest n).ops := by
  have hfrom := isDir_withSlash fromDir
  have hc : Carries fs strerror (withSlash fromDir) (withSlash dest) (Below (withSlash fromDir))
      (· ≠ .symlink target' (withSlash dest ++ rel)) := by
    refine ⟨fun current d hb _ _ _ => hb.sub d.dName, ?_, fun _ _ _ => nofun⟩
    rintro current d op hb hd hdoes rfl
    obtain ⟨hpath, hlnk⟩ := hdoes
    have hrel : current ++ d.dName = withSlash fromDir ++ rel := by
      obtain ⟨pre, rfl, -⟩ := hb
      rw [append_assoc, destPath_append, append_cancel_left_eq] at hpath
      rw [append_assoc, hpath]
    exact not_takenFor_lnk strerror hfrom hnames h hmem hu hb hd hrel hlnk
  intro hop
  exact (walk_rule hc ⟨[], (append_nil _).symm, .inl rfl⟩ nofun n).ops _ hop rfl

/-! ## The two ways to classify an entry -/

theorem forget_op (rel : Path) (e : Entry) :
    forget (Entry.op fromDir dest unknown (rel, e)) =
      forget (Entry.op fromDir dest (fun _ => false) (rel, e)) := by
  cases e <;> rfl

/-- A walk that has ended stays as it is. -/
theorem iterate_done {s : WalkState} (h : s.pc = .done) (n : ℕ) :
    (step fs strerror fromDir dest)^[n] s = s := by
  have hfix : step fs strerror fromDir dest s = s := by
    rw [step, h]
  exact Function.iterate_fixed hfix n

/-- A walk ends in one state only. -/
theorem done_unique {n n' : ℕ} (h : (addRecursiveCopy fs strerror fromDir dest n).pc = .done)
    (h' : (addRecursiveCopy fs strerror fromDir dest n').pc = .done) :
    addRecursiveCopy fs strerror fromDir dest n = addRecursiveCopy fs strerror fromDir dest n' := by
  have hle : ∀ {m m' : ℕ}, m ≤ m' → (addRecursiveCopy fs strerror fromDir dest m).pc = .done →
      addRecursiveCopy fs strerror fromDir dest m = addRecursiveCopy fs strerror fromDir dest m' := by
    intro m m' hm hd
    obtain ⟨k, rfl⟩ := Nat.exists_eq_add_of_le' hm
    unfold addRecursiveCopy at hd ⊢
    rw [Function.iterate_add_apply, iterate_done hd]
  rcases Nat.le_total n n' with hn | hn
  · exact hle hn h
  · exact (hle hn h').symm

/-- If every link is reported as one, it makes no difference which other types are reported. -/
theorem agree_of_reported (strerror : Errno → List Char) (dest : Path) (hw : Writable fs)
    (hw₀ : Writable fs₀) (h : Holds fs unknown (withSlash fromDir) es)
    (h₀ : Holds fs₀ (fun _ => false) (withSlash fromDir) es)
    (hlinks : ∀ rel name target, (rel, Entry.link name target) ∈ Entry.pathsAll [] es →
      unknown (withSlash fromDir ++ rel) = false) : Agree fs fs₀ strerror fromDir dest := by
  obtain ⟨n, more, hn, hperm, -⟩ := walk_of_holds strerror fromDir dest hw h fun re hre => by
    obtain ⟨rel, e⟩ := re
    cases e with
    | link name target => exact hlinks rel name target hre
    | reg | dir | other => trivial
  obtain ⟨n₀, more₀, hn₀, hperm₀, -⟩ := walk_of_holds strerror fromDir dest hw₀ h₀ fun re _ => by
    cases hre : re.2 <;> simp [LinkReported]
  refine ⟨n, n₀, by rw [hn], by rw [hn₀], ?_⟩
  rw [hn, hn₀]
  refine Perm.cons _ ((hperm.map forget).trans (Perm.trans ?_ (hperm₀.map forget).symm))
  rw [map_map, map_map]
  refine Perm.of_eq (map_congr_left fun re _ => ?_)
  exact forget_op re.1 re.2

/-- If a link is reported without its type, the walk does not do what it should. -/
theorem not_agree_of_unknown (hw₀ : Writable fs₀) (h : Holds fs unknown (withSlash fromDir) es)
    (h₀ : Holds fs₀ (fun _ => false) (withSlash fromDir) es) (hnames : PlainNames fs)
    {rel name target : Path} (hmem : (rel, Entry.link name target) ∈ Entry.pathsAll [] es)
    (hu : unknown (withSlash fromDir ++ rel) = true) : ¬ Agree fs fs₀ strerror fromDir dest := by
  rintro ⟨n, n₀, -, hn₀, hperm⟩
  -- the other walk makes the link
  obtain ⟨m₀, more₀, hm₀, hperm₀, -⟩ := walk_of_holds strerror fromDir dest hw₀ h₀ fun re _ => by
    cases hre : re.2 <;> simp [LinkReported]
  have hmade : WalkOp.symlink target (withSlash dest ++ rel) ∈
      (addRecursiveCopy fs₀ strerror fromDir dest n₀).ops := by
    have hdone : (addRecursiveCopy fs₀ strerror fromDir dest m₀).pc = .done := by rw [hm₀]
    rw [done_unique hn₀ hdone, hm₀]
    exact mem_cons_of_mem _ (hperm₀.mem_iff.mpr (mem_map.mpr ⟨_, hmem, rfl⟩))
  -- this one does not
  obtain ⟨op, hop, heq⟩ := mem_map.mp (hperm.mem_iff.mpr (mem_map.mpr ⟨_, hmade, rfl⟩))
  have hsymlink : op = .symlink target (withSlash dest ++ rel) := by
    cases op with
    | onError => cases heq
    | recursiveMkdir | addCopyJob | symlink => exact heq
  exact unmade_of_unknown strerror dest hnames h hmem hu n target (hsymlink ▸ hop)

/-- **When unknown types make no difference.** Whichever entries of a tree are reported without their
type, the walk ends and does the same as if every type were reported, exactly if every symbolic link is
reported as one. -/
theorem unknown_types_agree_iff (fs fs₀ : FileSystem) (strerror : Errno → List Char)
    (fromDir dest : Path) (unknown : Path → Bool) (es : List Entry) (hw : Writable fs)
    (hw₀ : Writable fs₀) (hnames : PlainNames fs) (h : Holds fs unknown (withSlash fromDir) es)
    (h₀ : Holds fs₀ (fun _ => false) (withSlash fromDir) es) :
    Agree fs fs₀ strerror fromDir dest ↔
      ∀ rel name target, (rel, Entry.link name target) ∈ Entry.pathsAll [] es →
        unknown (withSlash fromDir ++ rel) = false := by
  constructor
  · intro hagree rel name target hmem
    by_contra hu
    exact not_agree_of_unknown hw₀ h h₀ hnames hmem (by simpa using hu) hagree
  · exact agree_of_reported strerror dest hw hw₀ h h₀

/-- Every type of the small tree but that of the link is unknown. -/
theorem unknown_types_agree_iff_small :
    Agree (smallFs fun path => path ≠ ['s', '/', 'b', '/', 'l']) (smallFs fun _ => false)
      (fun _ => []) ['s'] ['d'] :=
  (unknown_types_agree_iff _ _ _ ['s'] _ (fun path => path ≠ ['s', '/', 'b', '/', 'l']) smallTree
    (writable_smallFs _) (writable_smallFs _) (listing_smallFs _).names (holds_smallTree _)
    (holds_smallTree _)).mpr (by
      intro rel name target hmem
      have hrel : rel = ['b', '/', 'l'] := by
        simp only [smallTree, Entry.pathsAll, Entry.paths, mem_append, mem_cons, Prod.mk.injEq,
          reduceCtorEq, and_false, not_mem_nil, false_or, or_false] at hmem
        exact hmem.1
      rw [hrel]
      decide)

/-- A dangling link whose type is unknown is not copied. -/
theorem unknown_link_not_copied :
    Writable (smallFs fun _ => true) ∧ Writable (smallFs fun _ => false) ∧
      PlainNames (smallFs fun _ => true) ∧
      Holds (smallFs fun _ => true) (fun _ => true) (withSlash ['s']) smallTree ∧
      Holds (smallFs fun _ => false) (fun _ => false) (withSlash ['s']) smallTree ∧
      ¬ Agree (smallFs fun _ => true) (smallFs fun _ => false) (fun _ => []) ['s'] ['d'] := by
  refine ⟨writable_smallFs _, writable_smallFs _, (listing_smallFs _).names, holds_smallTree _,
    holds_smallTree _, ?_⟩
  have hlink : (['b', '/', 'l'], Entry.link ['l'] ['t']) ∈ Entry.pathsAll [] smallTree := by
    simp [smallTree, Entry.pathsAll, Entry.paths]
  have hholds : ∀ unknown, Holds (smallFs unknown) unknown (withSlash ['s']) smallTree :=
    holds_smallTree
  exact not_agree_of_unknown (writable_smallFs _) (hholds _) (hholds _) (listing_smallFs _).names hlink rfl

end Walk

end Wcp
