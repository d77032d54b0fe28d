/-! # Paths by their components

What is appended to a path, for the two kinds of path syntax there are.  A plain name is one that
neither leads away from the directory it is appended to nor is cut into more than one component:
appending it descends by one step, and appending several descends by as many.
-/
namespace PathName

inductive Platform
  | unix | windows

/-- A step of a relative path.  `.` is none. -/
inductive Component
  | parent
  | normal (name : List Char)
deriving DecidableEq

namespace Platform

def isSep : Platform → Char → Bool
  | .unix, c => c = '/'
  | .windows, c => c = '/' || c = '\\'

/-- The name begins with a drive. -/
def hasDrive : Platform → List Char → Bool
  | .windows, c :: ':' :: _ => c.isAlpha
  | _, _ => false

/-- The components of a relative path. -/
def components (p : Platform) (path : List Char) : List Component :=
  ((path.splitOnP p.isSep).filter fun name => name ≠ [] ∧ name ≠ ['.']).map fun name =>
    if name = ['.', '.'] then .parent else .normal name

/-- `PathBuf::push`; nothing where the name takes the place of the path, or of a part of it. -/
def push (p : Platform) (base : List Component) (name : List Char) : Option (List Component) :=
  if (name.head?.any p.isSep || p.hasDrive name) = true then none
  else some (base ++ p.components name)

end Platform

/-- A name that is one component in every syntax. -/
structure Single (name : List Char) : Prop where
  nonempty : name ≠ []
  notCur : name ≠ ['.']
  notParent : name ≠ ['.', '.']
  letters : ∀ c ∈ name, c ≠ '/' ∧ c ≠ '\\' ∧ c ≠ '\x00'
  noDrive : Platform.windows.hasDrive name = false

variable {name : List Char}

theorem Single.isSep (h : Single name) (p : Platform) {c : Char} (hc : c ∈ name) :
    p.isSep c = false := by
  obtain ⟨hslash, hback, -⟩ := h.letters c hc
  cases p with
  | unix => exact decide_eq_false hslash
  | windows =>
    show (decide (c = '/') || decide (c = '\\')) = false
    rw [decide_eq_false hslash, decide_eq_false hback]
    rfl

theorem Single.hasDrive (h : Single name) (p : Platform) : p.hasDrive name = false := by
  cases p with
  | unix => rfl
  | windows => exact h.noDrive

theorem Single.components (h : Single name) (p : Platform) :
    p.components name = [.normal name] := by
  have hkept : decide (name ≠ [] ∧ name ≠ ['.']) = true := decide_eq_true ⟨h.nonempty, h.notCur⟩
  unfold Platform.components
  rw [List.splitOnP_eq_singleton fun c hc => h.isSep p hc, List.filter_cons, if_pos hkept,
    List.filter_nil, List.map_cons, List.map_nil, if_neg h.notParent]

/-- Appending a single component is one step down. -/
theorem Single.push (h : Single name) (p : Platform) (base : List Component) :
    p.push base name = some (base ++ [.normal name]) := by
  have hhead : name.head?.any p.isSep = false := by
    cases hname : name with
    | nil => rfl
    | cons c rest =>
      rw [hname] at h
      exact h.isSep p List.mem_cons_self
  unfold Platform.push
  rw [hhead, h.hasDrive p, h.components p]
  rfl

/-- A name that stands for itself in every syntax. -/
structure Plain (name : List Char) : Prop where
  nonempty : name ≠ []
  notCur : name ≠ ['.']
  notParent : name ≠ ['.', '.']
  letters : ∀ c ∈ name, c ≠ '/' ∧ c ≠ '\\' ∧ c ≠ ':' ∧ c ≠ '\x00'

theorem Plain.single (h : Plain name) : Single name where
  nonempty := h.nonempty
  notCur := h.notCur
  notParent := h.notParent
  letters := fun c hc => ⟨(h.letters c hc).1, (h.letters c hc).2.1, (h.letters c hc).2.2.2⟩
  noDrive := by
    unfold Platform.hasDrive
    split
    · exact absurd rfl (h.letters ':' (List.mem_cons_of_mem _ List.mem_cons_self)).2.2.1
    · rfl

/-- Appending a plain name is one step down. -/
theorem Plain.push (h : Plain name) (p : Platform) (base : List Component) :
    p.push base name = some (base ++ [.normal name]) :=
  h.single.push p base

/-- Appending plain names is as many steps down. -/
theorem push_all {names : List (List Char)} (h : ∀ name ∈ names, Plain name) (p : Platform)
    (base : List Component) :
    names.foldlM p.push base = some (base ++ names.map Component.normal) := by
  induction names generalizing base with
  | nil => exact congrArg some (List.append_nil base).symm
  | cons name names ih =>
    obtain ⟨hname, hnames⟩ := List.forall_mem_cons.mp h
    rw [List.foldlM_cons, hname.push p]
    show names.foldlM p.push (base ++ [.normal name]) = _
    rw [ih hnames, List.map_cons, List.append_assoc]
    rfl

end PathName
