import MatlabOutline.Catalog.Basic

/-!
Equality of items by what they document. Tables are compared without regard to order. Classes must
also agree on the superclasses found so far, which are compared in the same way.
-/

namespace MatlabOutline

namespace Table

/-- Whether two tables have the same names with the same values, in any order. -/
def agrees {α : Type} (same : α → α → Bool) (a b : Table α) : Bool :=
  a.entries.length == b.entries.length &&
    a.entries.all fun (key, value) => (b.get? key).any (same value)

end Table

namespace PropertyDoc

def agrees (a b : PropertyDoc) : Bool :=
  a.attrs.agrees (· == ·) b.attrs && { a with attrs := {} } == { b with attrs := {} }

end PropertyDoc

namespace MethodDoc

def agrees (a b : MethodDoc) : Bool :=
  a.attrs.agrees (· == ·) b.attrs && { a with attrs := {} } == { b with attrs := {} }

end MethodDoc

namespace ClassDoc

def agrees (a b : ClassDoc) : Bool :=
  a.attrs.agrees (· == ·) b.attrs && a.properties.agrees PropertyDoc.agrees b.properties &&
    a.methods.agrees MethodDoc.agrees b.methods &&
    { a with attrs := {}, properties := {}, methods := {} } ==
      { b with attrs := {}, properties := {}, methods := {} }

end ClassDoc

namespace Catalog

mutual

/-- Whether two items agree, if superclasses need to be followed no more than `fuel` times. -/
def agreeWithin (c : Catalog) (fuel : Nat) (a b : Item) : Option Bool :=
  match a.class?, b.class? with
  | some x, some y =>
    if x.agrees y then
      match c.bases.lookup a.serial, c.bases.lookup b.serial with
      | none, none => some true
      | some above, some below =>
        if above.length = below.length then
          match fuel with
          | 0 => none
          | n + 1 => allAgreeWithin c n above below
        else some false
      | _, _ => some false
    else some false
  | _, _ => some (decide (a.entity = b.entity))
termination_by (fuel, 0)

/-- Whether items agree one by one, up to the first pair that does not. -/
def allAgreeWithin (c : Catalog) (fuel : Nat) (as bs : List Item) : Option Bool :=
  match as, bs with
  | a :: as, b :: bs =>
    match agreeWithin c fuel a b with
    | some true => allAgreeWithin c fuel as bs
    | result => result
  | _, _ => some true
termination_by (fuel, as.length + 1)

end

/-- Whether two items agree, or none if the superclasses go round in circles without an answer. A
comparison that ends follows no pair of classes twice. -/
def agree (c : Catalog) (a b : Item) : Option Bool :=
  c.agreeWithin (c.bases.length * c.bases.length + 1) a b

end Catalog

end MatlabOutline
