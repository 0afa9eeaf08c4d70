import LuaBundle.Bundle.Assembly
import LuaBundle.Proofs.OrderedMap

/-!
# What the tables of a bundle hold

A name is registered with the text of the first record of that name. A row of aliases holds what the
edges of its module say, as far as it leads from one name to another registered one.
-/
namespace LuaBundle.Bundle

variable {t : FileTree} {sources out : OrderedMap String (List Char)} {ms : List ModuleRecord}
  {requester id name : String}

/-! ### Sources -/

/-- The record whose file is read for a name: the first of the name that has a file. -/
def provider? (ms : List ModuleRecord) (name : String) : Option ModuleRecord :=
  ms.find? fun m => m.filePath?.isSome && m.moduleName == name

def sourceOf? (t : FileTree) (m : ModuleRecord) : Option (List Char) :=
  m.filePath?.bind fun p => (t.readText p).toOption.map String.toList

section Equations

variable {m : ModuleRecord}

theorem readSources_nil : readSources t sources [] = .ok sources := rfl

theorem readSources_pass (h : m.filePath? = none) :
    readSources t sources (m :: ms) = readSources t sources ms := by
  simp only [readSources, h]

theorem readSources_again {p : Path} (h : m.filePath? = some p)
    (hc : sources.contains m.moduleName = true) :
    readSources t sources (m :: ms) = readSources t sources ms := by
  simp only [readSources, h, hc, if_true]

theorem readSources_read {p : Path} {s : String} (h : m.filePath? = some p)
    (hc : sources.contains m.moduleName = false) (hr : t.readText p = .ok s) :
    readSources t sources (m :: ms) =
      readSources t (sources.insert m.moduleName s.toList) ms := by
  simp only [readSources, h, hc, hr]
  rfl

theorem readSources_fail {p : Path} {fault : FileFault} (h : m.filePath? = some p)
    (hc : sources.contains m.moduleName = false) (hr : t.readText p = .error fault) :
    readSources t sources (m :: ms) = .error (.access p.text fault.message) := by
  simp only [readSources, h, hc, hr]
  rfl

theorem readSources_cases (h : readSources t sources (m :: ms) = .ok out) :
    (m.filePath? = none ∧ readSources t sources ms = .ok out) ∨
      (∃ p, m.filePath? = some p ∧ sources.contains m.moduleName = true ∧
        readSources t sources ms = .ok out) ∨
      ∃ p s, m.filePath? = some p ∧ sources.contains m.moduleName = false ∧
        t.readText p = .ok s ∧
        readSources t (sources.insert m.moduleName s.toList) ms = .ok out := by
  cases hp : m.filePath? with
  | none =>
    rw [readSources_pass hp] at h
    exact .inl ⟨rfl, h⟩
  | some p =>
    cases hc : sources.contains m.moduleName with
    | true =>
      rw [readSources_again hp hc] at h
      exact .inr (.inl ⟨p, rfl, rfl, h⟩)
    | false =>
      cases hr : t.readText p with
      | error fault =>
        rw [readSources_fail hp hc hr] at h
        cases h
      | ok s =>
        rw [readSources_read hp hc hr] at h
        exact .inr (.inr ⟨p, s, rfl, rfl, hr, h⟩)

theorem provider?_pass (h : m.filePath? = none) : provider? (m :: ms) name = provider? ms name := by
  simp [provider?, h]

theorem provider?_self {p : Path} (h : m.filePath? = some p) :
    provider? (m :: ms) m.moduleName = some m := by
  simp [provider?, h]

theorem provider?_other (h : m.moduleName ≠ name) :
    provider? (m :: ms) name = provider? ms name := by
  simp [provider?, h]

end Equations

/-- What is read under a name: what was there before, or else the provider's text. -/
theorem get?_readSources (h : readSources t sources ms = .ok out) (name : String) :
    out.get? name = (sources.get? name).or ((provider? ms name).bind (sourceOf? t)) := by
  induction ms generalizing sources with
  | nil =>
    rw [readSources_nil] at h
    cases h
    simp [provider?]
  | cons m ms ih =>
    rcases readSources_cases h with ⟨hp, h⟩ | ⟨p, hp, hc, h⟩ | ⟨p, s, hp, hc, hr, h⟩
    · rw [ih h, provider?_pass hp]
    · rw [ih h]
      by_cases hn : m.moduleName = name
      · obtain ⟨source, hs⟩ := Option.isSome_iff_exists.mp (hn ▸ hc)
        rw [hs, Option.some_or, Option.some_or]
      · rw [provider?_other hn]
    · rw [ih h, OrderedMap.get?_insert]
      by_cases hn : m.moduleName = name
      · subst hn
        have hs : sources.get? m.moduleName = none :=
          Option.not_isSome_iff_eq_none.mp (by simpa [OrderedMap.contains] using hc)
        simp [provider?_self hp, hs, sourceOf?, hp, hr, Except.toOption]
      · rw [provider?_other hn, if_neg (Ne.symm hn)]

/-- Exactly the names of records with files are registered. -/
theorem contains_readSources (h : readSources t sources ms = .ok out) (name : String) :
    out.contains name = (sources.contains name || (provider? ms name).isSome) := by
  induction ms generalizing sources with
  | nil =>
    rw [readSources_nil] at h
    cases h
    simp [provider?]
  | cons m ms ih =>
    rcases readSources_cases h with ⟨hp, h⟩ | ⟨p, hp, hc, h⟩ | ⟨p, s, hp, hc, hr, h⟩
    · rw [ih h, provider?_pass hp]
    · rw [ih h]
      by_cases hn : m.moduleName = name
      · rw [← hn, hc, Bool.true_or, Bool.true_or]
      · rw [provider?_other hn]
    · rw [ih h, OrderedMap.contains_insert]
      by_cases hn : m.moduleName = name
      · subst hn
        simp [provider?_self hp]
      · simp [provider?_other hn, Ne.symm hn]

/-- Reading fails only at a file that is no text. -/
theorem readSources_succeeds
    (h : ∀ m ∈ ms, ∀ p, m.filePath? = some p → ∃ s, t.readText p = .ok s) :
    ∃ out, readSources t sources ms = .ok out := by
  induction ms generalizing sources with
  | nil => exact ⟨sources, rfl⟩
  | cons m ms ih =>
    have hrest := fun m' hm' => h m' (List.mem_cons_of_mem _ hm')
    cases hp : m.filePath? with
    | none => rw [readSources_pass hp]; exact ih hrest
    | some p =>
      cases hc : sources.contains m.moduleName with
      | true => rw [readSources_again hp hc]; exact ih hrest
      | false =>
        obtain ⟨s, hs⟩ := h m (List.mem_cons_self ..) p hp
        rw [readSources_read hp hc hs]
        exact ih hrest

/-- The text that a name is registered with, and the file it comes from. -/
theorem provider?_source (h : readSources t .empty ms = .ok out) {m : ModuleRecord}
    (hm : provider? ms name = some m) :
    ∃ p s, m.filePath? = some p ∧ t.readText p = .ok s ∧ out.get? name = some s.toList := by
  have hget := get?_readSources h name
  have hcontains := contains_readSources h name
  simp only [hm, OrderedMap.get?_empty, Option.none_or, Option.bind_some] at hget
  rw [OrderedMap.contains, hget, hm, OrderedMap.contains_empty] at hcontains
  obtain ⟨source, hsource⟩ := Option.isSome_iff_exists.mp (by simpa using hcontains)
  obtain ⟨p, hp, hread⟩ := Option.bind_eq_some_iff.mp hsource
  cases hr : t.readText p with
  | error fault => simp [hr, Except.toOption] at hread
  | ok s =>
    simp only [hr, Except.toOption, Option.map_some, Option.some.injEq] at hread
    exact ⟨p, s, hp, hr, by rw [hget, hsource, hread]⟩

/-! ### Rows of edges -/

/-- The row of a name holds the edges of the first node of that name. -/
theorem get?_edgeRows (g : DependencyGraph) (name : String) :
    (Analysis.edgeRows g).get? name =
      (g.nodes.find? fun n => n.module.moduleName == name).map GraphNode.dependencies := by
  suffices key : ∀ (nodes : List GraphNode) (rows : OrderedMap String (List Edge)),
      (nodes.foldl (fun rows n => if rows.contains n.module.moduleName then rows
        else rows.insert n.module.moduleName n.dependencies) rows).get? name =
      (rows.get? name).or
        ((nodes.find? fun n => n.module.moduleName == name).map GraphNode.dependencies) by
    simpa [Analysis.edgeRows] using key g.nodes .empty
  intro nodes
  induction nodes with
  | nil => intro rows; simp
  | cons n nodes ih =>
    intro rows
    rw [List.foldl_cons, ih]
    by_cases hn : n.module.moduleName = name
    · subst hn
      cases hr : rows.get? n.module.moduleName with
      | none => simp [OrderedMap.contains, hr]
      | some edges => simp [OrderedMap.contains, hr]
    · have hfind : (n :: nodes).find? (fun n => n.module.moduleName == name) =
          nodes.find? (fun n => n.module.moduleName == name) := by simp [hn]
      rw [hfind]
      split
      · rfl
      · rw [OrderedMap.get?_insert, if_neg (Ne.symm hn)]

/-! ### Rows of aliases -/

theorem mem_requireAliases {rows : OrderedMap String (List Edge)} {row : OrderedMap String String} :
    (requester, row) ∈ (requireAliases rows).entries ↔
      ∃ edges, (requester, edges) ∈ rows.entries ∧ row = edgeAliases edges ∧ row.entries ≠ [] := by
  have hnodup : (((rows.entries.map fun row => (row.1, edgeAliases row.2)).filter
      fun row => !row.2.entries.isEmpty).map Prod.fst).Nodup := by
    refine (List.filter_sublist.map Prod.fst).nodup ?_
    rw [List.map_map]
    exact rows.nodup_keys
  rw [requireAliases, OrderedMap.entries_ofList hnodup, List.mem_filter, List.mem_map]
  constructor
  · rintro ⟨⟨⟨requester', edges⟩, hmem, he⟩, hne⟩
    cases he
    exact ⟨edges, hmem, rfl, by simpa using hne⟩
  · rintro ⟨edges, hmem, rfl, hne⟩
    exact ⟨⟨(requester, edges), hmem, rfl⟩, by simpa using hne⟩

variable {aliases : Aliases}

theorem nodup_aliases : ((tables aliases sources).aliases.map Prod.fst).Nodup := by
  refine (List.filter_sublist.map Prod.fst).nodup ?_
  rw [List.map_map]
  exact aliases.nodup_keys

theorem mem_aliases {row : List (String × String)} :
    (requester, row) ∈ (tables aliases sources).aliases ↔
      ∃ targets, (requester, targets) ∈ aliases.entries ∧ row = keptAliases sources targets ∧
        row ≠ [] := by
  simp only [tables, List.mem_filter, List.mem_map]
  constructor
  · rintro ⟨⟨⟨requester', targets⟩, hmem, he⟩, hne⟩
    cases he
    exact ⟨targets, hmem, rfl, by simpa using hne⟩
  · rintro ⟨targets, hmem, rfl, hne⟩
    exact ⟨⟨(requester, targets), hmem, rfl⟩, by simpa using hne⟩

theorem mem_keptAliases {targets : OrderedMap String String} :
    (id, name) ∈ keptAliases sources targets ↔
      targets.get? id = some name ∧ id ≠ name ∧ sources.contains name = true := by
  rw [keptAliases, List.mem_filter, OrderedMap.get?_eq_some_iff]
  simp

theorem lookup_keptAliases {targets : OrderedMap String String} :
    (keptAliases sources targets).lookup id = some name ↔
      targets.get? id = some name ∧ id ≠ name ∧ sources.contains name = true := by
  have hnodup : ((keptAliases sources targets).map Prod.fst).Nodup :=
    (List.filter_sublist.map Prod.fst).nodup targets.nodup_keys
  rw [lookup_eq_some_iff_mem hnodup, mem_keptAliases]

theorem lookup_modules : (tables aliases sources).modules.lookup name =
    (sources.get? name).map dropHashLine :=
  lookup_map_snd

theorem keys_modules : (tables aliases sources).modules.map Prod.fst = sources.keys := by
  simp [tables, OrderedMap.keys, Function.comp_def]

namespace Tables

/-- What an identifier stands for in the row of the module that requires it. -/
def alias? (b : Tables) (requester id : String) : Option String :=
  (b.aliases.lookup requester).bind fun row => row.lookup id

/-- What requiring an identifier leads to: the alias in the requester's row or, without one, the
module of that name. -/
def target? (b : Tables) (requester id : String) : Option String :=
  (b.alias? requester id).or (if (b.modules.lookup id).isSome then some id else none)

end Tables

/-- Filtering twice drops no alias that leads from one name to another registered one. -/
theorem alias?_tables {rows : OrderedMap String (List Edge)} :
    (tables (requireAliases rows) sources).alias? requester id = some name ↔
      ∃ edges, rows.get? requester = some edges ∧ (edgeAliases edges).get? id = some name ∧
        id ≠ name ∧ sources.contains name = true := by
  rw [Tables.alias?, Option.bind_eq_some_iff]
  constructor
  · rintro ⟨row, hrow, hid⟩
    obtain ⟨targets, htargets, rfl, -⟩ :=
      mem_aliases.mp ((lookup_eq_some_iff_mem nodup_aliases).mp hrow)
    obtain ⟨edges, hedges, rfl, -⟩ := mem_requireAliases.mp htargets
    exact ⟨edges, OrderedMap.get?_eq_some_iff.mpr hedges, lookup_keptAliases.mp hid⟩
  · rintro ⟨edges, hedges, hget, hne, hc⟩
    refine ⟨keptAliases sources (edgeAliases edges), (lookup_eq_some_iff_mem nodup_aliases).mpr ?_,
      lookup_keptAliases.mpr ⟨hget, hne, hc⟩⟩
    refine mem_aliases.mpr ⟨edgeAliases edges, mem_requireAliases.mpr
      ⟨edges, OrderedMap.get?_eq_some_iff.mp hedges, rfl, ?_⟩, rfl, ?_⟩
    · exact List.ne_nil_of_mem (OrderedMap.get?_eq_some_iff.mp hget)
    · exact List.ne_nil_of_mem (mem_keptAliases.mpr ⟨hget, hne, hc⟩)

/-- An identifier that all edges of a row lead to one name by is an alias exactly if it is not that
name itself. -/
theorem get?_edgeAliases {edges : List Edge} {e : Edge} (he : e ∈ edges)
    (hfound : e.isMissing = false)
    (hagree : ∀ e' ∈ edges, e'.isMissing = false → e'.id = e.id → e'.moduleName = e.moduleName) :
    (edgeAliases edges).get? e.id = if e.id = e.moduleName then none else some e.moduleName := by
  have hmem : ∀ name, (e.id, name) ∈
      ((edges.filter fun e => !e.isMissing && e.id != e.moduleName).map
      fun e => (e.id, e.moduleName)) → name = e.moduleName ∧ e.id ≠ e.moduleName := by
    intro name h
    obtain ⟨e', he', heq⟩ := List.mem_map.mp h
    obtain ⟨hid, rfl⟩ := Prod.mk.inj heq
    obtain ⟨hin, hcond⟩ := List.mem_filter.mp he'
    simp only [Bool.and_eq_true, Bool.not_eq_true', bne_iff_ne, ne_eq] at hcond
    have hname := hagree e' hin hcond.1 hid
    exact ⟨hname, by rw [← hid, ← hname]; exact hcond.2⟩
  split
  · next hsame =>
    cases hget : (edgeAliases edges).get? e.id with
    | none => rfl
    | some name => exact absurd hsame (hmem name (OrderedMap.mem_of_get?_ofList hget)).2
  · next hne =>
    refine OrderedMap.get?_ofList_of_agree (List.mem_map.mpr ⟨e, ?_, rfl⟩)
      fun name h => (hmem name h).1
    simp [he, hfound, hne]

end LuaBundle.Bundle
