import LuaBundle.OrderedMap
import Mathlib.Data.List.Basic

/-!
# Looking up in ordered maps

Without a repeated key, looking up is membership.
-/
namespace LuaBundle

variable {κ ν : Type} [DecidableEq κ]

theorem lookup_eq_some_iff_mem {entries : List (κ × ν)} (h : (entries.map Prod.fst).Nodup) {k : κ}
    {v : ν} : entries.lookup k = some v ↔ (k, v) ∈ entries := by
  induction entries with
  | nil => simp
  | cons e rest ih =>
    obtain ⟨a, b⟩ := e
    obtain ⟨ha, hrest⟩ := List.nodup_cons.mp h
    by_cases hk : k = a
    · subst hk
      have hfresh : ∀ v, (k, v) ∉ rest := fun _ hv => ha (List.mem_map.mpr ⟨_, hv, rfl⟩)
      simp [hfresh, eq_comm]
    · rw [List.lookup_cons, beq_eq_false_iff_ne.mpr hk, ih hrest]
      simp [hk]

theorem isSome_lookup_iff_mem_keys {entries : List (κ × ν)} {k : κ} :
    (entries.lookup k).isSome = true ↔ k ∈ entries.map Prod.fst := by
  rw [List.lookup_isSome_iff, List.mem_map]
  simp only [beq_iff_eq, @eq_comm _ k]

theorem lookup_map_snd {μ : Type} {entries : List (κ × ν)} {f : κ × ν → μ} {k : κ} :
    (entries.map fun e => (e.1, f e)).lookup k = (entries.lookup k).map fun v => f (k, v) := by
  induction entries with
  | nil => rfl
  | cons e rest ih =>
    obtain ⟨a, b⟩ := e
    by_cases hk : k = a
    · subst hk
      simp
    · simp [List.lookup_cons, beq_eq_false_iff_ne.mpr hk, ih]

namespace OrderedMap

variable {m : OrderedMap κ ν} {k : κ} {v : ν}

theorem get?_eq_some_iff : m.get? k = some v ↔ (k, v) ∈ m.entries :=
  lookup_eq_some_iff_mem m.nodup_keys

theorem contains_iff : m.contains k = true ↔ k ∈ m.keys :=
  isSome_lookup_iff_mem_keys

@[simp] theorem contains_empty : (empty : OrderedMap κ ν).contains k = false := rfl

@[simp] theorem contains_insert (m : OrderedMap κ ν) (k k' : κ) (v : ν) :
    (m.insert k v).contains k' = (decide (k' = k) || m.contains k') := by
  rw [contains, get?_insert]
  by_cases hk : k' = k <;> simp [hk, contains]

theorem entries_insert_of_new (h : k ∉ m.keys) :
    (m.insert k v).entries = m.entries ++ [(k, v)] := by
  suffices key : ∀ entries : List (κ × ν), k ∉ entries.map Prod.fst →
      putEntry k v entries = entries ++ [(k, v)] from key _ h
  intro entries
  induction entries with
  | nil => intro _; rfl
  | cons e rest ih =>
    intro hk
    obtain ⟨ha, hrest⟩ := not_or.mp (fun hmem => hk (List.mem_cons.mpr hmem))
    rw [putEntry, if_neg (Ne.symm ha), ih hrest, List.cons_append]

/-- Entries without a repeated key are kept as they are. -/
theorem entries_ofList {entries : List (κ × ν)} (h : (entries.map Prod.fst).Nodup) :
    (ofList entries).entries = entries := by
  suffices key : ∀ more (m : OrderedMap κ ν), ((m.entries ++ more).map Prod.fst).Nodup →
      (m.insertAll more).entries = m.entries ++ more from key entries empty h
  intro more
  induction more with
  | nil => intro m _; simp [insertAll]
  | cons e more ih =>
    intro m h
    have hnew : e.1 ∉ m.keys := by
      rw [List.map_append, List.nodup_append] at h
      intro hk
      exact h.2.2 e.1 hk e.1 (by simp) rfl
    have hput := entries_insert_of_new (v := e.2) hnew
    have hstep : m.insertAll (e :: more) = (m.insert e.1 e.2).insertAll more := rfl
    rw [hstep, ih _ (by rw [hput]; simpa using h), hput]
    simp

theorem get?_insertAll (m : OrderedMap κ ν) (more : List (κ × ν)) (k : κ) :
    (m.insertAll more).get? k = (more.reverse.lookup k).or (m.get? k) := by
  induction more generalizing m with
  | nil => rfl
  | cons e more ih =>
    have hstep : m.insertAll (e :: more) = (m.insert e.1 e.2).insertAll more := rfl
    rw [hstep, ih, get?_insert, List.reverse_cons, List.lookup_append, Option.or_assoc]
    obtain ⟨a, b⟩ := e
    by_cases hk : k = a
    · simp [hk]
    · simp [hk, List.lookup_cons, beq_eq_false_iff_ne.mpr hk]

/-! ### Extending a map -/

/-- A map is its keys in their order, with what it gives for each. -/
theorem ext_get? {m n : OrderedMap κ ν} (hkeys : m.keys = n.keys)
    (hget : ∀ k, m.get? k = n.get? k) : m = n := by
  have hlength : m.entries.length = n.entries.length := by
    simpa [keys] using congrArg List.length hkeys
  refine OrderedMap.ext (List.ext_getElem hlength fun i hm hn => ?_)
  have hfst : m.entries[i].1 = n.entries[i].1 := by
    have hi := List.getElem_of_eq hkeys (i := i) (by simpa [keys] using hm)
    simpa [keys] using hi
  have hleft : m.get? m.entries[i].1 = some m.entries[i].2 :=
    get?_eq_some_iff.mpr (List.getElem_mem hm)
  have hright : n.get? n.entries[i].1 = some n.entries[i].2 :=
    get?_eq_some_iff.mpr (List.getElem_mem hn)
  rw [← hfst, ← hget, hleft] at hright
  exact Prod.ext hfst (Option.some.inj hright)

theorem insertAll_append (m : OrderedMap κ ν) (xs ys : List (κ × ν)) :
    m.insertAll (xs ++ ys) = (m.insertAll xs).insertAll ys := List.foldl_append

/-- Which keys there are, and where, does not depend on the values. -/
theorem keys_insertAll_congr {xs ys : List (κ × ν)} (h : xs.map Prod.fst = ys.map Prod.fst)
    {m n : OrderedMap κ ν} (hkeys : m.keys = n.keys) :
    (m.insertAll xs).keys = (n.insertAll ys).keys := by
  induction xs generalizing ys m n with
  | nil =>
    obtain rfl := List.map_eq_nil_iff.mp h.symm
    exact hkeys
  | cons x xs ih =>
    obtain ⟨y, ys, rfl, hhead, hrest⟩ := List.map_eq_cons_iff.mp h.symm
    refine ih hrest.symm ?_
    rw [keys_insert, keys_insert, hkeys, hhead]

theorem eraseDups_of_nodup {α : Type} [DecidableEq α] {l : List α} (h : l.Nodup) :
    l.eraseDups = l := by
  induction l with
  | nil => rfl
  | cons a l ih =>
    obtain ⟨ha, hl⟩ := List.nodup_cons.mp h
    have hkept : l.filter (fun b => !b == a) = l :=
      List.filter_eq_self.mpr fun b hb => by grind
    rw [List.eraseDups_cons, hkept, ih hl]

/-- Every key keeps the place where it comes first. -/
theorem keys_insertAll (m : OrderedMap κ ν) (more : List (κ × ν)) :
    (m.insertAll more).keys = (m.keys ++ more.map Prod.fst).eraseDups := by
  induction more generalizing m with
  | nil =>
    rw [List.map_nil, List.append_nil]
    exact (eraseDups_of_nodup m.nodup_keys).symm
  | cons e more ih =>
    have hstep : m.insertAll (e :: more) = (m.insert e.1 e.2).insertAll more := rfl
    rw [hstep, ih, keys_insert, List.map_cons]
    split
    · next hk => rw [List.eraseDups_append, List.eraseDups_append, List.cons_removeAll,
        if_neg (by simpa using hk)]
    · rw [List.append_assoc, List.singleton_append]

theorem keys_ofList (entries : List (κ × ν)) :
    (ofList entries).keys = (entries.map Prod.fst).eraseDups := keys_insertAll ..

theorem get?_extend (m n : OrderedMap κ ν) (k : κ) :
    (m.extend n).get? k = (n.get? k).or (m.get? k) := by
  have hreverse : n.entries.reverse.lookup k = n.entries.lookup k := by
    refine Option.ext fun v => ?_
    have hnodup : (n.entries.reverse.map Prod.fst).Nodup := by
      rw [List.map_reverse]
      exact List.pairwise_reverse.mpr (n.nodup_keys.imp Ne.symm)
    rw [lookup_eq_some_iff_mem hnodup, lookup_eq_some_iff_mem n.nodup_keys, List.mem_reverse]
  rw [extend, get?_insertAll, hreverse]
  rfl

theorem extend_insert (m n : OrderedMap κ ν) (k : κ) (v : ν) :
    m.extend (n.insert k v) = (m.extend n).insert k v := by
  by_cases hk : k ∈ n.keys
  · refine ext_get? ?_ fun k' => ?_
    · have hmem : k ∈ (m.extend n).keys := by
        rw [extend, keys_insertAll, List.mem_eraseDups]
        exact List.mem_append_right _ hk
      rw [keys_insert, if_pos hmem]
      refine keys_insertAll_congr ?_ rfl
      exact (keys_insert n k v).trans (if_pos hk)
    · rw [get?_extend, get?_insert, get?_insert, get?_extend]
      split <;> rfl
  · rw [extend, entries_insert_of_new hk, insertAll_append]
    rfl

theorem extend_insertAll (m n : OrderedMap κ ν) (more : List (κ × ν)) :
    m.extend (n.insertAll more) = (m.extend n).insertAll more := by
  induction more generalizing n with
  | nil => rfl
  | cons e more ih =>
    have hstep (n : OrderedMap κ ν) :
      n.insertAll (e :: more) = (n.insert e.1 e.2).insertAll more := rfl
    rw [hstep, hstep, ih, extend_insert]

theorem extend_empty (m : OrderedMap κ ν) : m.extend empty = m := rfl

theorem empty_extend (m : OrderedMap κ ν) : empty.extend m = m :=
  OrderedMap.ext (entries_ofList m.nodup_keys)

instance : Std.Associative (extend : OrderedMap κ ν → OrderedMap κ ν → OrderedMap κ ν) where
  assoc m n o := (extend_insertAll m n o.entries).symm

/-- A map of entries that agree on a key gives what they agree on. -/
theorem get?_ofList_of_agree {entries : List (κ × ν)} (hk : (k, v) ∈ entries)
    (h : ∀ w, (k, w) ∈ entries → w = v) : (ofList entries).get? k = some v := by
  rw [ofList, get?_insertAll, get?_empty, Option.or_none]
  cases hl : entries.reverse.lookup k with
  | none => simpa using List.lookup_eq_none_iff.mp hl (k, v) (List.mem_reverse.mpr hk)
  | some w =>
    obtain ⟨front, back, he, -⟩ := List.lookup_eq_some_iff.mp hl
    rw [h w (List.mem_reverse.mp (by simp [he]))]

theorem mem_of_get?_ofList {entries : List (κ × ν)} (h : (ofList entries).get? k = some v) :
    (k, v) ∈ entries := by
  rw [ofList, get?_insertAll, get?_empty, Option.or_none] at h
  obtain ⟨front, back, he, -⟩ := List.lookup_eq_some_iff.mp h
  exact List.mem_reverse.mp (by simp [he])

end OrderedMap

end LuaBundle
