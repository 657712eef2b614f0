import Mathlib

/-!
# Lexical normalisation of paths

A path is a list of characters, its components are what stands between the slashes. The normal form of
a path is where one gets by going through the components in order without asking the file system: an
empty component and `.` stay where they are, and `..` goes up.
-/

namespace LexicalPath

open List

/-- A path in normal form: up some number of times, then down along the names. -/
structure NormalPath where
  absolute : Bool
  ups : ℕ
  names : List (List Char)
deriving DecidableEq

/-- A component that names a file. -/
structure Ordinary (c : List Char) : Prop where
  nonempty : c ≠ []
  dot : c ≠ ['.']
  dotdot : c ≠ ['.', '.']

namespace NormalPath

/-- One directory up. The root is its own parent. -/
def up (p : NormalPath) : NormalPath :=
  if p.names ≠ [] then { p with names := p.names.dropLast }
  else if p.absolute then p
  else { p with ups := p.ups + 1 }

/-- Down along some names. -/
def below (p : NormalPath) (names : List (List Char)) : NormalPath :=
  { p with names := p.names ++ names }

/-- The next component of a path. -/
def enter (p : NormalPath) (c : List Char) : NormalPath :=
  if c = [] ∨ c = ['.'] then p
  else if c = ['.', '.'] then p.up
  else p.below [c]

/-- The normal form of a path. -/
def ofPath (path : List Char) : NormalPath :=
  (path.splitOn '/').foldl enter ⟨path.head? = some '/', 0, []⟩

/-- The root directory. -/
def IsRoot (p : NormalPath) : Prop := p.absolute = true ∧ p.names = []

instance (p : NormalPath) : Decidable p.IsRoot := inferInstanceAs (Decidable (_ ∧ _))

variable {p : NormalPath}

@[simp]
theorem enter_nil : p.enter [] = p := rfl

@[simp]
theorem enter_dot : p.enter ['.'] = p := rfl

@[simp]
theorem enter_dotdot : p.enter ['.', '.'] = p.up := rfl

theorem enter_of_ordinary {c : List Char} (h : Ordinary c) : p.enter c = p.below [c] := by
  rw [enter, if_neg (by simp [h.nonempty, h.dot]), if_neg h.dotdot]

theorem below_below (a b : List (List Char)) : (p.below a).below b = p.below (a ++ b) := by
  simp [below]

theorem foldl_enter_of_ordinary {names : List (List Char)} (h : ∀ c ∈ names, Ordinary c) :
    names.foldl enter p = p.below names := by
  induction names generalizing p with
  | nil => simp [below]
  | cons c names ih =>
    rw [foldl_cons, enter_of_ordinary (h c mem_cons_self),
      ih fun c' hc' => h c' (mem_cons_of_mem _ hc'), below_below]
    rfl

/-- What is up is not below, except at the root. -/
theorem up_eq_below_iff (names : List (List Char)) :
    p.up = p.below names ↔ p.IsRoot ∧ names = [] := by
  obtain ⟨absolute, ups, ns⟩ := p
  by_cases hns : ns = []
  · subst hns
    cases absolute with
    | true => simp [up, below, IsRoot, eq_comm]
    | false => simp [up, below, IsRoot]
  · have hlen : 0 < ns.length := length_pos_of_ne_nil hns
    constructor
    · intro h
      have hnames := congrArg (fun q => q.names.length) h
      simp [up, below, hns] at hnames
      omega
    · rintro ⟨⟨-, hroot⟩, -⟩
      exact absurd hroot hns

theorem up_eq_self_iff : p.up = p ↔ p.IsRoot := by
  have h := up_eq_below_iff (p := p) []
  simpa [below] using h

/-- What follows a slash is entered after what stands before it. -/
theorem ofPath_append (d q : List Char) :
    ofPath (d ++ '/' :: q) = (q.splitOn '/').foldl enter (ofPath (d ++ ['/'])) := by
  have hhead : (d ++ '/' :: q).head? = (d ++ ['/']).head? := by
    cases d <;> rfl
  rw [ofPath, ofPath, hhead, splitOn_append_cons_self, splitOn_append_cons_self, foldl_append,
    foldl_append]
  rfl

/-- A slash at the end makes no difference. -/
theorem ofPath_slash {d : List Char} (h : d ≠ []) : ofPath (d ++ ['/']) = ofPath d := by
  have hhead : (d ++ ['/']).head? = d.head? := by
    cases d with
    | nil => exact absurd rfl h
    | cons => rfl
  rw [ofPath, ofPath, hhead, splitOn_append_cons_self, foldl_append]
  rfl

end NormalPath

/-- A relative path from its names. -/
def join (names : List (List Char)) : List Char := ['/'].intercalate names

theorem join_append_singleton (names : List (List Char)) (name : List Char) :
    join (names ++ [name]) = names.flatMap (· ++ ['/']) ++ name := by
  unfold join
  induction names with
  | nil => simp
  | cons c names ih =>
    rw [cons_append, intercalate_cons_of_ne_nil (append_ne_nil_of_right_ne_nil _ (cons_ne_nil _ _)), ih]
    simp

/-- The names below a directory. -/
theorem NormalPath.ofPath_join {d : List Char} {names : List (List Char)}
    (hs : ∀ c ∈ names, '/' ∉ c) (ho : ∀ c ∈ names, Ordinary c) :
    ofPath (d ++ '/' :: join names) = (ofPath (d ++ ['/'])).below names := by
  by_cases hn : names = []
  · subst hn
    simp [join, below]
  · rw [ofPath_append, join, splitOn_intercalate '/' hs hn, foldl_enter_of_ordinary ho]

end LexicalPath
