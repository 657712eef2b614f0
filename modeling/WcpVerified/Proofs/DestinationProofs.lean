import WcpVerified.Library.LexicalPath
import WcpVerified.Proofs.WalkStepProofs
import WcpVerified.WcpMain

/-!
# Proofs: where a directory is copied to

`wcpMain` appends the last component of the source to the destination, and the walk appends the names
of the entries. The names never lead out of a directory, but the last component of the source can: it
is `..` when the source is given so.
-/

namespace Wcp

open List LexicalPath NormalPath

/-! ## The last component -/

theorem slash_filename (path : Path) : '/' ∉ filename path := by
  intro h
  have := mem_rtakeWhile_imp h
  simp at this

/-- A path is the directory it is in, and its last component. -/
theorem filename_cases (path : Path) :
    filename path = path ∧ '/' ∉ path ∨ ∃ d, path = d ++ '/' :: filename path := by
  have hsplit : path.rdropWhile (· ≠ '/') ++ filename path = path := rdropWhile_append_rtakeWhile
  rcases eq_nil_or_concat (path.rdropWhile (· ≠ '/')) with hnil | ⟨d, c, hd⟩
  · rw [hnil, nil_append] at hsplit
    refine .inl ⟨hsplit, ?_⟩
    rw [← hsplit]
    exact slash_filename path
  · have hc : c = '/' := by
      have hlast := rdropWhile_last_not (p := (· ≠ '/')) path (by rw [hd]; simp)
      simp only [hd] at hlast
      simpa using hlast
    refine .inr ⟨d, ?_⟩
    rw [hd, hc] at hsplit
    simpa using hsplit.symm

/-- The last component of a path, if it names a file. -/
def lastName (path : Path) : List Path :=
  (path.splitOn '/').getLast?.toList.filter fun c => c ≠ [] ∧ c ≠ ['.'] ∧ c ≠ ['.', '.']

theorem getLast?_splitOn (path : Path) : (path.splitOn '/').getLast? = some (filename path) := by
  rcases filename_cases path with ⟨heq, hs⟩ | ⟨d, hd⟩
  · rw [splitOn_eq_singleton hs, heq]
    rfl
  · rw [hd, splitOn_append_cons_self, splitOn_eq_singleton (slash_filename path), ← hd]
    simp

/-- Unless it goes up, the last component of a path leads to itself. -/
theorem enter_filename {src : Path} (h : filename src ≠ ['.', '.']) (p : NormalPath) :
    p.enter (filename src) = p.below (lastName src) := by
  rw [lastName, getLast?_splitOn]
  by_cases hnil : filename src = []
  · simp [hnil, below]
  · by_cases hdot : filename src = ['.']
    · simp [hdot, below]
    · rw [enter_of_ordinary ⟨hnil, hdot, h⟩]
      simp [hnil, hdot, h]

theorem lastName_dotdot {src : Path} (h : filename src = ['.', '.']) : lastName src = [] := by
  rw [lastName, getLast?_splitOn, h]
  rfl

/-! ## The directory that is copied to -/

theorem appendPath_ne_nil {dest : Path} (h : dest ≠ []) (src : Path) :
    appendPath dest (filename src) ≠ [] := by
  unfold appendPath
  split
  · rename_i hhead
    intro hnil
    rw [hnil] at hhead
    cases hhead
  · split <;> simp [h]

theorem ofPath_appendPath {dest : Path} (h : dest ≠ []) (src : Path) :
    ofPath (appendPath dest (filename src)) = (ofPath dest).enter (filename src) := by
  have hs := slash_filename src
  have hroot : (filename src).head? ≠ some '/' := fun hc => hs (mem_of_head? hc)
  have henter : ∀ d, ofPath (d ++ '/' :: filename src) = (ofPath (d ++ ['/'])).enter (filename src) := by
    intro d
    rw [ofPath_append, splitOn_eq_singleton hs]
    rfl
  rw [appendPath, if_neg hroot]
  split
  · rw [henter, ofPath_slash h]
  · rename_i hnil
    rw [not_not] at hnil
    -- the destination ends in a slash
    rcases filename_cases dest with ⟨heq, -⟩ | ⟨d, hd⟩
    · exact absurd (heq.symm.trans hnil) h
    · rw [hnil] at hd
      rw [hd, append_assoc]
      exact henter d

theorem ofPath_withSlash {path : Path} (h : path ≠ []) : ofPath (Walk.withSlash path) = ofPath path := by
  unfold Walk.withSlash
  split
  · rfl
  · exact ofPath_slash h

/-- What `wcpMain` does with a directory. -/
theorem wcpMain_recursive {fs : FileSystem} {strerror : Errno → List Char} {access : Path → Bool}
    {cwd src dest src' dest' : Path}
    (h : (wcpMain fs strerror access cwd src dest).2 = .addRecursiveCopy src' dest') :
    dest ≠ [] ∧ src' = src ∧ dest' = appendPath dest (filename src) ∧
      (wcpMain fs strerror access cwd src dest).1 = [.recursiveMkdir dest'] := by
  have hplan : ∀ {srcStat : Statx} {destStat : Option Statx},
      (planCopy fs src dest srcStat destStat).2 = .addRecursiveCopy src' dest' →
      src' = src ∧ dest' = appendPath dest (filename src) ∧
        (planCopy fs src dest srcStat destStat).1 = [.recursiveMkdir dest'] := by
    intro srcStat destStat hp
    unfold planCopy at hp ⊢
    split at hp
    · dsimp only at hp
      split at hp
      · injection hp with hs hd
        exact ⟨hs.symm, hd.symm, by rw [hd]⟩
      · cases hp
    · cases hp
    · cases hp
  unfold wcpMain at h ⊢
  split at h
  · cases h
  · rename_i hne
    rw [if_neg hne]
    refine ⟨fun hnil => hne (.inr hnil), ?_⟩
    split at h
    · cases h
    · split at h
      · split at h
        · cases h
        · rename_i hno
          rw [if_neg hno]
          split at h
          · rename_i hacc
            rw [if_pos hacc]
            exact hplan h
          · cases h
      · split at h
        · rename_i hacc
          rw [if_pos hacc]
          exact hplan h
        · cases h

namespace Walk

/-! ## The entries -/

variable {fs : FileSystem} {strerror : Errno → List Char} {fromDir dest : Path}

/-- A directory below the source, along names. -/
def Inside (fromDir path : Path) : Prop :=
  ∃ names : List Path, (∀ c ∈ names, ValidName c) ∧ path = fromDir ++ names.flatMap (· ++ ['/'])

/-- The kernel has reported an entry with this path. -/
def Reported (fs : FileSystem) (path : Path) : Prop :=
  ∃ current d, Listed fs current d ∧ path = current ++ d.dName

/-- An operation is about the source itself or about an entry below it, along the names `rel`. -/
structure About (fs : FileSystem) (fromDir : Path) (op : WalkOp) (rel : List Path) : Prop where
  valid : ∀ c ∈ rel, ValidName c
  reported : rel = [] ∨ Reported fs (fromDir ++ join rel)
  job : ∀ job, op = .addCopyJob job → job.src = fromDir ++ join rel

/-- A name that is reported for anything but `.` and `..`. -/
theorem validName_of_listed (h : Listing fs) {current : Path} {d : Dirent} (hd : Listed fs current d)
    (hn : d.dName ∉ [['.'], ['.', '.']]) : ValidName d.dName := by
  obtain ⟨k, i, ds, hds, hmem⟩ := hd.reported
  simp only [mem_cons, not_mem_nil, or_false, not_or] at hn
  exact ⟨h.nonempty current k i ds hds d hmem, h.names current k i ds hds d hmem, hn.1, hn.2⟩

/-- `.` and `..` are taken for directories. -/
theorem takenFor_dots (h : Listing fs) {current : Path} {d : Dirent} (hd : Listed fs current d)
    (hn : d.dName ∈ [['.'], ['.', '.']]) {type : DType} (ht : TakenFor fs strerror current d type) :
    type = .dir := by
  obtain ⟨k, i, ds, hds, hmem⟩ := hd.reported
  obtain ⟨sb, hc⟩ := ht
  rcases classify_eq_ok hc with ⟨hne, rfl, -⟩ | ⟨hu, st, k', hst, rfl, -⟩
  · rcases h.dots current k i ds hds d hmem hn with hdir | ⟨hu, -⟩
    · exact hdir
    · exact absurd hu hne
  · rcases h.dots current k i ds hds d hmem hn with hdir | ⟨-, hst'⟩
    · rw [hdir] at hu
      cases hu
    · rw [hst' k' st hst]
      rfl

theorem does_target (h : Listing fs) {current : Path} {d : Dirent} (hd : Listed fs current d)
    {op : WalkOp} (hdoes : Does fs strerror fromDir dest current d op) {path : Path}
    (ht : target op = some path) :
    path = Walk.destPath fromDir dest (current ++ d.dName) ∧ ValidName d.dName ∧
      ∀ job, op = .addCopyJob job → job.src = current ++ d.dName := by
  have hname : ∀ type, type ≠ .dir → TakenFor fs strerror current d type → ValidName d.dName := by
    intro type hne htype
    exact validName_of_listed h hd fun hdot => hne (takenFor_dots h hd hdot htype)
  cases op with
  | recursiveMkdir p =>
    obtain ⟨hp, hn, -⟩ := hdoes
    exact ⟨(Option.some.inj ht).symm.trans hp, validName_of_listed h hd hn, nofun⟩
  | addCopyJob job =>
    obtain ⟨htype, sb, rfl, -⟩ := hdoes
    refine ⟨(Option.some.inj ht).symm, hname .reg nofun htype, ?_⟩
    rintro job ⟨⟩
    rfl
  | symlink t p =>
    obtain ⟨hp, htype⟩ := hdoes
    exact ⟨(Option.some.inj ht).symm.trans hp, hname .lnk nofun htype, nofun⟩
  | onError => cases ht

/-- Every operation of the walk is about an entry, and is done along its names. -/
theorem target_walk (h : Listing fs) (strerror : Errno → List Char) (fromDir dest : Path) (n : ℕ)
    {op : WalkOp} (hop : op ∈ (addRecursiveCopy fs strerror fromDir dest n).ops) {path : Path}
    (ht : target op = some path) :
    ∃ rel, About fs (withSlash fromDir) op rel ∧ path = withSlash dest ++ join rel := by
  have hc : Carries fs strerror (withSlash fromDir) (withSlash dest) (Inside (withSlash fromDir))
      fun op => ∀ path, target op = some path →
        ∃ rel, About fs (withSlash fromDir) op rel ∧ path = withSlash dest ++ join rel := by
    refine ⟨?_, ?_, fun _ _ _ _ => nofun⟩
    · rintro _ d ⟨names, hnames, rfl⟩ hd hn -
      refine ⟨names ++ [d.dName], ?_, by simp⟩
      intro c hc
      rcases mem_append.mp hc with hc | hc
      · exact hnames c hc
      · rw [mem_singleton.mp hc]
        exact validName_of_listed h hd hn
    · rintro _ d op ⟨names, hnames, rfl⟩ hd hdoes path ht
      obtain ⟨hpath, hvalid, hjob⟩ := does_target h hd hdoes ht
      have hjoin : withSlash fromDir ++ names.flatMap (· ++ ['/']) ++ d.dName =
          withSlash fromDir ++ join (names ++ [d.dName]) := by
        rw [join_append_singleton, append_assoc]
      rw [hjoin] at hpath hjob
      refine ⟨names ++ [d.dName], ⟨?_, .inr ⟨_, d, hd, hjoin.symm⟩, hjob⟩, ?_⟩
      · intro c hc
        rcases mem_append.mp hc with hc | hc
        · exact hnames c hc
        · rwa [mem_singleton.mp hc]
      · rw [hpath, destPath_append]
  refine (walk_rule hc ⟨[], nofun, (append_nil _).symm⟩ ?_ n).ops op hop path ht
  rintro _ ⟨⟩
  exact ⟨[], ⟨nofun, .inl rfl, nofun⟩, (append_nil _).symm⟩

end Walk

/-! ## The copy of a directory -/

section Directory

variable {fs : FileSystem} {strerror : Errno → List Char} {access : Path → Bool}
  {cwd src dest : Path}

/-- What an operation is about is copied to where it belongs below the destination. -/
def Stays (fs : FileSystem) (src dest : Path) (op : WalkOp) : Prop :=
  ∀ path, Walk.target op = some path → ∃ rel, Walk.About fs (Walk.withSlash src) op rel ∧
    ofPath path = (ofPath dest).below (lastName src ++ rel)

theorem stays_of_enter (h : Walk.Listing fs) (strerror : Errno → List Char) (hd : dest ≠ [])
    (henter : (ofPath dest).enter (filename src) = (ofPath dest).below (lastName src)) {n : ℕ}
    {op : WalkOp} (hop : op ∈
      (Walk.addRecursiveCopy fs strerror src (appendPath dest (filename src)) n).ops) :
    Stays fs src dest op := by
  intro path ht
  obtain ⟨rel, habout, rfl⟩ := Walk.target_walk h strerror src _ n hop ht
  refine ⟨rel, habout, ?_⟩
  obtain ⟨d, hslash⟩ := Walk.isDir_withSlash (appendPath dest (filename src))
  have hdir : ofPath (d ++ ['/']) = (ofPath dest).below (lastName src) := by
    rw [← hslash, ofPath_withSlash (appendPath_ne_nil hd src), ofPath_appendPath hd, henter]
  have hcons : d ++ ['/'] ++ join rel = d ++ '/' :: join rel := by simp
  rw [hslash, hcons, ofPath_join (fun c hc => (habout.valid c hc).slash)
    (fun c hc => ⟨(habout.valid c hc).nonempty, (habout.valid c hc).dot, (habout.valid c hc).dotdot⟩),
    hdir, below_below]

/-- **When copies stay under the destination.** If the source is a directory, everything that is copied
goes to its place at or below the destination, exactly if the last component of the source is not `..`
or the destination is the root. -/
theorem stays_under_dest_iff (fs : FileSystem) (strerror : Errno → List Char) (access : Path → Bool)
    (cwd src dest src' dest' : Path) (h : Walk.Listing fs)
    (hplan : (wcpMain fs strerror access cwd src dest).2 = .addRecursiveCopy src' dest') :
    (∀ n, ∀ op ∈ wcpOps fs strerror access cwd src dest n, Stays fs src dest op) ↔
      filename src ≠ ['.', '.'] ∨ (ofPath dest).IsRoot := by
  obtain ⟨hd, hsrc, hdest, hops⟩ := wcpMain_recursive hplan
  subst src' dest'
  constructor
  · intro hstays
    by_contra hcond
    rw [not_or, not_not] at hcond
    obtain ⟨hdots, hroot⟩ := hcond
    have hfirst : .recursiveMkdir (appendPath dest (filename src)) ∈
        wcpOps fs strerror access cwd src dest 0 := by
      rw [wcpOps, hops]
      exact mem_append_left _ (mem_singleton_self _)
    obtain ⟨rel, -, hpath⟩ := hstays 0 _ hfirst _ rfl
    rw [ofPath_appendPath hd, hdots, enter_dotdot] at hpath
    exact hroot ((up_eq_below_iff _).mp hpath).1
  · intro hcond n op hop
    have henter : (ofPath dest).enter (filename src) = (ofPath dest).below (lastName src) := by
      by_cases hdots : filename src = ['.', '.']
      · have hroot := hcond.resolve_left (not_not_intro hdots)
        rw [hdots, enter_dotdot, up_eq_self_iff.mpr hroot, lastName_dotdot hdots]
        simp [below]
      · exact enter_filename hdots _
    rw [wcpOps, hops, hplan] at hop
    rcases mem_append.mp hop with hop | hop
    · rw [mem_singleton.mp hop]
      rintro path ⟨⟩
      refine ⟨[], ⟨by simp, .inl rfl, by simp⟩, ?_⟩
      rw [ofPath_appendPath hd, henter, append_nil]
    · exact stays_of_enter h strerror hd henter hop

/-- The directory `s` copied into `d`. -/
theorem stays_under_dest_iff_small :
    lastName ['s'] = [['s']] ∧ ∀ n, ∀ op ∈ wcpOps (Walk.smallFs fun _ => false) (fun _ => [])
      (fun _ => true) ['/'] ['s'] ['d'] n, Stays (Walk.smallFs fun _ => false) ['s'] ['d'] op := by
  refine ⟨by decide, ?_⟩
  have hplan : (wcpMain (Walk.smallFs fun _ => false) (fun _ => []) (fun _ => true) ['/']
      ['s'] ['d']).2 = .addRecursiveCopy ['s'] ['d', '/', 's'] := by decide
  exact (stays_under_dest_iff _ _ _ _ _ _ _ _ (Walk.listing_smallFs _) hplan).mpr (.inl (by decide))

/-- `wcp s/.. d` copies to `d/..`, next to the destination. -/
theorem copied_next_to_dest :
    Walk.Listing (Walk.smallFs fun _ => false) ∧
      (wcpMain (Walk.smallFs fun _ => false) (fun _ => []) (fun _ => true) ['/']
        "s/..".toList "d".toList).2 = .addRecursiveCopy "s/..".toList "d/..".toList ∧
      .symlink "t".toList "d/../l".toList ∈ wcpOps (Walk.smallFs fun _ => false) (fun _ => [])
        (fun _ => true) ['/'] "s/..".toList "d".toList 7 ∧
      ¬ Stays (Walk.smallFs fun _ => false) "s/..".toList "d".toList
        (.symlink "t".toList "d/../l".toList) := by
  refine ⟨Walk.listing_smallFs _, by decide, by decide, fun h => ?_⟩
  obtain ⟨rel, -, hpath⟩ := h _ rfl
  have hup : ofPath "d/../l".toList = ⟨false, 0, [['l']]⟩ := by decide
  have hdest : ofPath "d".toList = ⟨false, 0, [['d']]⟩ := by decide
  rw [hup, hdest] at hpath
  injection hpath with _ _ hnames
  cases hnames

end Directory

end Wcp
