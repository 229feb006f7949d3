/-!
# Types

A type is the wildcard `any` or a set of primitive tags, of at least one. The wildcard
agrees with every type in both directions, which is how values of unknown type pass
through checked code.
-/
namespace GradualScript

/-- The primitive kinds of value that the checker tells apart. -/
inductive Tag where
  | nil
  | numeric
  | string
  | boolean
  deriving DecidableEq

namespace Tag

/-- All tags, in the order in which they are written. -/
def all : List Tag := [nil, numeric, string, boolean]

theorem mem_all (t : Tag) : t ∈ all := by cases t <;> simp [all]

def name : Tag → String
  | nil => "Nil"
  | numeric => "Numeric"
  | string => "String"
  | boolean => "Boolean"

end Tag

/-- A set of tags, which may be empty. -/
structure TagSet where
  nil : Bool
  numeric : Bool
  string : Bool
  boolean : Bool
  deriving DecidableEq

namespace TagSet

def empty : TagSet := ⟨false, false, false, false⟩

def has (s : TagSet) : Tag → Bool
  | .nil => s.nil
  | .numeric => s.numeric
  | .string => s.string
  | .boolean => s.boolean

def single : Tag → TagSet
  | .nil => { empty with nil := true }
  | .numeric => { empty with numeric := true }
  | .string => { empty with string := true }
  | .boolean => { empty with boolean := true }

@[simp] theorem has_single (t u : Tag) : (single t).has u = decide (u = t) := by
  cases t <;> cases u <;> rfl

theorem exists_single (t : Tag) : ∃ u, (single t).has u = true :=
  ⟨t, by rw [has_single, decide_eq_true rfl]⟩

def union (s t : TagSet) : TagSet :=
  ⟨s.nil || t.nil, s.numeric || t.numeric, s.string || t.string, s.boolean || t.boolean⟩

@[simp] theorem has_union (s t : TagSet) (u : Tag) : (s.union t).has u = (s.has u || t.has u) := by
  cases u <;> rfl

/-- A set stays nonempty if tags are added. -/
theorem exists_union {s : TagSet} (h : ∃ u, s.has u = true) (t : TagSet) :
    ∃ u, (s.union t).has u = true := by
  obtain ⟨u, hu⟩ := h
  exact ⟨u, by rw [has_union, hu, Bool.true_or]⟩

/-- Every tag of `s` is one of `t`. -/
def subset (s t : TagSet) : Bool := Tag.all.all fun u => !s.has u || t.has u

theorem subset_iff (s t : TagSet) : s.subset t = true ↔ ∀ u, s.has u = true → t.has u = true := by
  simp only [subset, List.all_eq_true, Bool.or_eq_true, Bool.not_eq_true']
  refine ⟨fun h u hu => ?_, fun h u _ => ?_⟩
  · simpa [hu] using h u (Tag.mem_all u)
  · cases hs : s.has u
    · exact .inl rfl
    · exact .inr (h u hs)

theorem ext_has {s t : TagSet} (h : ∀ u, s.has u = t.has u) : s = t := by
  cases s; cases t
  have h1 := h .nil; have h2 := h .numeric; have h3 := h .string; have h4 := h .boolean
  simp only [has] at h1 h2 h3 h4
  simp [h1, h2, h3, h4]

/-- The tags of the set, in order. -/
def toList (s : TagSet) : List Tag := Tag.all.filter s.has

end TagSet

/-- A type. A set of tags comes with the fact that it is not empty, which for a single
tag is found without being asked for. -/
inductive TypeSet where
  | any
  | tags (set : TagSet) (nonempty : ∃ t, set.has t = true := by exact TagSet.exists_single _)
  deriving DecidableEq

namespace TypeSet

def nil : TypeSet := tags (.single .nil)
def numeric : TypeSet := tags (.single .numeric)
def string : TypeSet := tags (.single .string)
def boolean : TypeSet := tags (.single .boolean)

/-- The tags of the second type are among those of the first, or one of the two
is the wildcard. -/
def contains : TypeSet → TypeSet → Bool
  | tags s _, tags t _ => t.subset s
  | _, _ => true

/-- All tags of the type are allowed. The wildcard is within every set. -/
def within : TypeSet → TagSet → Bool
  | any, _ => true
  | tags s _, allowed => s.subset allowed

/-- The tags of both types; the wildcard absorbs. -/
def union : TypeSet → TypeSet → TypeSet
  | tags s hs, tags t _ => tags (s.union t) (TagSet.exists_union hs t)
  | _, _ => any

/-- One of the two types contains the other. -/
def compatible (t u : TypeSet) : Bool := t.contains u || u.contains t

/-- The names of the tags with bars between them. -/
def text : TypeSet → String
  | any => "Any"
  | tags s _ => "|".intercalate (s.toList.map Tag.name)

end TypeSet

end GradualScript
