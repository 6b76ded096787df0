import StackScript.Value.Basic

/-!
# Tables

A table has one entry for each of its keys.  Its entries come in no order that means anything,
so whatever needs the keys in order sorts them.
-/

namespace StackScript

/-- The contents of a table. -/
structure Table where
  toList : List (String × Value)
  distinct : (toList.map Prod.fst).Nodup

namespace Table

instance : EmptyCollection Table :=
  ⟨⟨[], List.nodup_nil⟩⟩

instance : Inhabited Table :=
  ⟨{}⟩

def find? (t : Table) (key : String) : Option Value :=
  t.toList.lookup key

def contains (t : Table) (key : String) : Bool :=
  (t.find? key).isSome

instance : GetElem? Table String Value (fun t key => t.contains key = true) where
  getElem t key hkey := (t.find? key).get hkey
  getElem? t key := t.find? key

def keys (t : Table) : List String :=
  t.toList.map Prod.fst

def size (t : Table) : Nat :=
  t.toList.length

def isEmpty (t : Table) : Bool :=
  t.toList.isEmpty

def erase (t : Table) (key : String) : Table where
  toList := t.toList.filter fun e => e.1 != key
  distinct := (List.filter_sublist.map Prod.fst).nodup t.distinct

/-- The table with a value for a key, whether the key was there or not. -/
def insert (t : Table) (key : String) (v : Value) : Table where
  toList := (key, v) :: (t.erase key).toList
  distinct := by
    refine List.nodup_cons.mpr ⟨?_, (t.erase key).distinct⟩
    intro hkey
    rcases List.mem_map.mp hkey with ⟨e, he, heq⟩
    simp [erase, heq] at he

end Table

/-! ## Keys in order -/

/-- Sorted texts with one more in its place. -/
def insertSorted (key : String) : List String -> List String
  | [] => [key]
  | k :: ks => if key <= k then key :: k :: ks else k :: insertSorted key ks

def sortTexts (keys : List String) : List String :=
  keys.foldr insertSorted []

/-- The keys of a table in the order of their characters. -/
def Table.orderedKeys (t : Table) : List String :=
  sortTexts t.keys

end StackScript
