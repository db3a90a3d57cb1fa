import FastPath.Text.Hex

/-!
# Listings

A listing is a tree of named fields, the form in which finished code is shown to tools and
read back from them. It has no text of its own: a tool writes the tree in whatever format
it uses.

A type that has a listing is an instance of `Listed`. A value of a type with several forms
is listed under the name of its form; a type that only has names is listed by its name.
-/

namespace FastPath

/-- A tree of named fields. -/
inductive Listing where
  | null
  | bool (b : Bool)
  | int (n : Int)
  | text (s : String)
  | list (items : List Listing)
  | record (fields : List (String × Listing))
deriving Inhabited

/-- Values that can be listed and read back. -/
class Listed (α : Type) where
  /-- The listing of a value. -/
  listing : α → Listing
  /-- The value that a listing shows. -/
  read? : Listing → Option α

export Listed (listing)

/-- A finite type whose values have names. -/
class Named (α : Type) where
  /-- Every value with its name. -/
  names : List (String × α)

namespace Listing

/-- A field; a record that lacks it has `null` there. -/
def field? {α : Type} [Listed α] (l : Listing) (name : String) : Option α :=
  match l with
  | record fields => Listed.read? ((fields.lookup name).getD null)
  | _ => none

/-- An item of a list. -/
def item? {α : Type} [Listed α] (l : Listing) (i : Nat) : Option α :=
  match l with
  | list items => items[i]?.bind Listed.read?
  | _ => none

/-- A value listed under the name of its form. -/
def form (name : String) (fields : List (String × Listing)) : Listing :=
  record [(name, record fields)]

/-- A value whose form has one part without a name. -/
def wrap {α : Type} [Listed α] (name : String) (part : α) : Listing :=
  record [(name, listing part)]

/-- The name of a form and what is listed under it. -/
def unwrap? : Listing → Option (String × Listing)
  | record [(name, l)] => some (name, l)
  | _ => none

end Listing

/-! ### Basic types -/

instance : Listed Listing := ⟨id, some⟩

instance : Listed Bool where
  listing := .bool
  read?
    | .bool b => some b
    | _ => none

instance : Listed Int where
  listing := .int
  read?
    | .int n => some n
    | _ => none

instance : Listed String where
  listing := .text
  read?
    | .text s => some s
    | _ => none

/-- A type listed as another. -/
@[reducible]
def Listed.via {α β : Type} [Listed β] (into : α → β) (of? : β → Option α) : Listed α where
  listing a := Listed.listing (into a)
  read? l := (Listed.read? l).bind of?

instance : Listed Nat := .via Int.ofNat fun n => if 0 ≤ n then some n.toNat else none
instance : Listed UInt8 := .via UInt8.toNat fun n => some (UInt8.ofNat n)
instance : Listed UInt16 := .via UInt16.toNat fun n => some (UInt16.ofNat n)
instance : Listed UInt32 := .via UInt32.toNat fun n => some (UInt32.ofNat n)
instance : Listed UInt64 := .via UInt64.toNat fun n => some (UInt64.ofNat n)
instance : Listed Int32 := .via Int32.toInt fun n => some (Int32.ofInt n)
instance : Listed Int64 := .via Int64.toInt fun n => some (Int64.ofInt n)
instance : Listed Double := .via Hex.ofDouble Hex.readDouble

instance {α : Type} [Listed α] : Listed (Option α) where
  listing
    | none => .null
    | some a => listing a
  read?
    | .null => some none
    | l => (Listed.read? l).map some

instance {α : Type} [Listed α] : Listed (List α) where
  listing as := .list (as.map listing)
  read?
    | .list ls => ls.mapM Listed.read?
    | _ => none

instance {α : Type} [Listed α] : Listed (Array α) := .via Array.toList fun as => some as.toArray

instance {α β : Type} [Listed α] [Listed β] : Listed (α × β) where
  listing p := .list [listing p.1, listing p.2]
  read? l := do return (← l.item? 0, ← l.item? 1)

/-- The name of a value of a finite type. -/
def Named.name {α : Type} [Named α] [DecidableEq α] (a : α) : String :=
  ((names.find? fun p : String × α => p.2 = a).map (·.1)).getD ""

/-- The value with a name. -/
def Named.ofName? {α : Type} [Named α] (name : String) : Option α := names.lookup name

instance (priority := low) {α : Type} [Named α] [DecidableEq α] : Listed α :=
  .via Named.name Named.ofName?

end FastPath
