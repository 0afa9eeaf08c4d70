/-!
# Maps in insertion order

A key keeps the place of its first insertion and takes the value of its last.
-/
namespace LuaBundle

structure OrderedMap (κ ν : Type) where
  entries : List (κ × ν)
  nodup_keys : (entries.map Prod.fst).Nodup
  deriving DecidableEq, Repr

namespace OrderedMap

variable {κ ν : Type}

@[ext] theorem ext {m n : OrderedMap κ ν} (h : m.entries = n.entries) : m = n := by
  cases m; cases n; cases h; rfl

def empty : OrderedMap κ ν := ⟨[], .nil⟩

def keys (m : OrderedMap κ ν) : List κ := m.entries.map Prod.fst

def values (m : OrderedMap κ ν) : List ν := m.entries.map Prod.snd

variable [DecidableEq κ]

def putEntry (k : κ) (v : ν) : List (κ × ν) → List (κ × ν)
  | [] => [(k, v)]
  | (k', v') :: rest => if k' = k then (k', v) :: rest else (k', v') :: putEntry k v rest

theorem map_fst_putEntry (k : κ) (v : ν) (entries : List (κ × ν)) :
    (putEntry k v entries).map Prod.fst =
      if k ∈ entries.map Prod.fst then entries.map Prod.fst else entries.map Prod.fst ++ [k] := by
  induction entries with
  | nil => simp [putEntry]
  | cons e rest ih =>
    obtain ⟨a, b⟩ := e
    by_cases ha : a = k <;> grind [putEntry]

theorem nodup_putEntry (k : κ) (v : ν) {entries : List (κ × ν)}
    (h : (entries.map Prod.fst).Nodup) : ((putEntry k v entries).map Prod.fst).Nodup := by
  rw [map_fst_putEntry]
  split
  · exact h
  · next hk => exact List.nodup_append.mpr ⟨h, by simp, by grind⟩

def insert (m : OrderedMap κ ν) (k : κ) (v : ν) : OrderedMap κ ν :=
  ⟨putEntry k v m.entries, nodup_putEntry k v m.nodup_keys⟩

def get? (m : OrderedMap κ ν) (k : κ) : Option ν := m.entries.lookup k

def contains (m : OrderedMap κ ν) (k : κ) : Bool := (m.get? k).isSome

def insertAll (m : OrderedMap κ ν) (more : List (κ × ν)) : OrderedMap κ ν :=
  more.foldl (fun m e => m.insert e.1 e.2) m

def ofList (entries : List (κ × ν)) : OrderedMap κ ν := empty.insertAll entries

/-- Two maps as one; the second decides the values of the keys that both have. -/
def extend (m more : OrderedMap κ ν) : OrderedMap κ ν := m.insertAll more.entries

theorem lookup_putEntry (k k' : κ) (v : ν) (entries : List (κ × ν)) :
    (putEntry k v entries).lookup k' = if k' = k then some v else entries.lookup k' := by
  induction entries with
  | nil => grind [putEntry]
  | cons e rest ih =>
    obtain ⟨a, b⟩ := e
    by_cases ha : a = k <;> grind [putEntry]

@[simp] theorem get?_empty (k : κ) : (empty : OrderedMap κ ν).get? k = none := rfl

@[simp] theorem get?_insert (m : OrderedMap κ ν) (k k' : κ) (v : ν) :
    (m.insert k v).get? k' = if k' = k then some v else m.get? k' := lookup_putEntry ..

theorem keys_insert (m : OrderedMap κ ν) (k : κ) (v : ν) :
    (m.insert k v).keys = if k ∈ m.keys then m.keys else m.keys ++ [k] := map_fst_putEntry ..

end OrderedMap

end LuaBundle
