/-!
Tables from names to values in the order in which the names were first set.
-/

namespace MatlabOutline

structure Table (α : Type) where
  entries : List (String × α) := []
deriving Repr

namespace Table

variable {α β : Type}

def empty : Table α :=
  {}

def keys (t : Table α) : List String :=
  t.entries.map Prod.fst

def lookup (key : String) : List (String × α) → Option α
  | [] => none
  | (k, v) :: r => if k = key then some v else lookup key r

def get? (t : Table α) (key : String) : Option α :=
  lookup key t.entries

def contains (t : Table α) (key : String) : Bool :=
  (t.get? key).isSome

/-- Replaces the value of a name that is present, and else puts it at the end. -/
def put (key : String) (value : α) : List (String × α) → List (String × α)
  | [] => [(key, value)]
  | (k, v) :: r => if k = key then (k, value) :: r else (k, v) :: put key value r

/-- Sets a name. A name that is already present keeps its place. -/
def insert (t : Table α) (key : String) (value : α) : Table α :=
  ⟨put key value t.entries⟩

def map (f : α → β) (t : Table α) : Table β :=
  ⟨t.entries.map fun (k, v) => (k, f v)⟩

instance [DecidableEq α] : DecidableEq (Table α) := fun a b =>
  if h : a.entries = b.entries then
    isTrue (by cases a; cases b; exact congrArg Table.mk h)
  else isFalse fun same => h (congrArg entries same)

theorem lookup_put (key other : String) (value : α) (l : List (String × α)) :
    lookup other (put key value l) = if key = other then some value else lookup other l := by
  fun_induction put key value l with
  | case1 => rfl
  | case2 v r => by_cases same : key = other <;> simp [lookup, same]
  | case3 k v r away ih =>
    by_cases same : k = other
    · have : key ≠ other := fun h => away (same.trans h.symm)
      simp [lookup, same, this]
    · simp [lookup, same, ih]

/-- Setting one name changes its value and no other. -/
theorem get?_insert (t : Table α) (key other : String) (value : α) :
    (t.insert key value).get? other = if key = other then some value else t.get? other :=
  lookup_put key other value t.entries

theorem keys_put (key : String) (value : α) (l : List (String × α)) :
    (put key value l).map Prod.fst =
      if key ∈ l.map Prod.fst then l.map Prod.fst else l.map Prod.fst ++ [key] := by
  fun_induction put key value l with
  | case1 => simp
  | case2 v r => simp
  | case3 k v r away ih =>
    have : key ≠ k := fun h => away h.symm
    simp only [List.map_cons, List.mem_cons, this, false_or, ih]
    split <;> simp

/-- A name that was absent comes last, and no other name moves. -/
theorem keys_insert (t : Table α) (key : String) (value : α) :
    (t.insert key value).keys = if key ∈ t.keys then t.keys else t.keys ++ [key] :=
  keys_put key value t.entries

end Table

end MatlabOutline
