import LuaBundle.Report.Console
import Mathlib.Data.Finset.Basic
import Mathlib.Data.Finset.Dedup
import Mathlib.Data.List.Induction
import Mathlib.Data.List.Lex

/-!
# The dependency tree

Writing the tree goes down along the edges of a graph that may be cyclic. `Writes` is that procedure
with the set of names that it adds to on the way down and takes from on the way up: it always ends,
and leaves the set as it was. `Lists` says which lines there are: one for each edge of each module
that is gone into, and a module is gone into wherever its name is not on the path already.
-/
namespace LuaBundle.Report

/-- The edges of a module; one without a row has none. -/
def edgesOf (rows : OrderedMap String (List Edge)) (name : String) : List Edge :=
  (rows.get? name).getD []

/-! ### Lines and their places -/

/-- A line of the tree. Its address has, for each edge on the path down to it, the place among the
edges of its module; `way` has the names on the path, from the requiring module up to the entry. -/
structure Branch where
  address : List Nat
  way : List String
  edge : Edge
  deriving DecidableEq, Repr

namespace Branch

def mark (b : Branch) : String :=
  if b.edge.moduleName ∈ b.way then " (cycle)" else marker b.edge

def line (b : Branch) : String := indent (b.way.length + 1) ++ b.edge.moduleName ++ b.mark

theorem mark_eq_cycle_iff (b : Branch) : b.mark = " (cycle)" ↔ b.edge.moduleName ∈ b.way := by
  rw [mark]
  split
  · next h => exact iff_of_true rfl h
  · next h =>
    refine iff_of_false (fun hmark => ?_) h
    rw [marker] at hmark
    split at hmark
    · exact absurd hmark (by decide)
    · split at hmark <;> exact absurd hmark (by decide)

end Branch

/-- Where a module is gone into: the entry is, and so is the target of an edge of a module that is,
unless the name of the target is on the way down to it. -/
inductive GoneInto (rows : OrderedMap String (List Edge)) (entry : String) :
    List Nat → List String → Prop
  | entry : GoneInto rows entry [] [entry]
  | target {address name way i e} (above : GoneInto rows entry address (name :: way))
      (here : (edgesOf rows name)[i]? = some e) (off : e.moduleName ∉ name :: way) :
      GoneInto rows entry (address ++ [i]) (e.moduleName :: name :: way)

/-- Each edge of a module that is gone into has a line. -/
inductive Shown (rows : OrderedMap String (List Edge)) (entry : String) : Branch → Prop
  | edge {address name way i e} (above : GoneInto rows entry address (name :: way))
      (here : (edgesOf rows name)[i]? = some e) :
      Shown rows entry ⟨address ++ [i], name :: way, e⟩

/-- The lines of the tree below an entry. They come in the order of their addresses: a line before
those under it, and these before the next edge of the same module. -/
structure Lists (rows : OrderedMap String (List Edge)) (entry : String) (lines : List Branch) :
    Prop where
  ordered : lines.Pairwise fun b c => b.address < c.address
  shown : ∀ b, b ∈ lines ↔ Shown rows entry b
  marked : ∀ b ∈ lines, b.mark = " (cycle)" ↔ b.edge.moduleName ∈ b.way
  /-- Nothing is under a line that is marked as a cycle. -/
  stops : ∀ b ∈ lines, b.edge.moduleName ∈ b.way → ∀ c ∈ lines, b.address <+: c.address → c = b
  /-- Under every other line its module is gone into. -/
  descends : ∀ b ∈ lines, b.edge.moduleName ∉ b.way →
    GoneInto rows entry b.address (b.edge.moduleName :: b.way)

/-! ### Down from an edge -/

/-- The lines that an edge gives, its own and those under it. -/
inductive Under (rows : OrderedMap String (List Edge)) :
    List Nat → List String → Edge → Branch → Prop
  | self {address way e} : Under rows address way e ⟨address, way, e⟩
  | deeper {address way e i d b} (off : e.moduleName ∉ way)
      (here : (edgesOf rows e.moduleName)[i]? = some d)
      (under : Under rows (address ++ [i]) (e.moduleName :: way) d b) : Under rows address way e b

variable {rows : OrderedMap String (List Edge)} {entry : String} {address : List Nat}
  {way : List String} {e d : Edge} {b c : Branch} {i : Nat}

theorem Under.address_front (h : Under rows address way e b) : address <+: b.address := by
  induction h with
  | self => exact List.prefix_refl _
  | deeper _ _ _ ih => exact (List.prefix_append ..).trans ih

/-- One step further down. -/
theorem Under.concat (h : Under rows address way e b) (off : b.edge.moduleName ∉ b.way)
    (here : (edgesOf rows b.edge.moduleName)[i]? = some d) :
    Under rows address way e ⟨b.address ++ [i], b.edge.moduleName :: b.way, d⟩ := by
  induction h with
  | self => exact .deeper off here .self
  | deeper off' here' _ ih => exact .deeper off' here' (ih off here)

theorem Shown.below (h : Shown rows entry ⟨address, way, e⟩) (off : e.moduleName ∉ way)
    (here : (edgesOf rows e.moduleName)[i]? = some d) :
    Shown rows entry ⟨address ++ [i], e.moduleName :: way, d⟩ := by
  cases h with
  | edge above here' => exact .edge (.target above here' off) here

theorem Shown.of_under (hshown : Shown rows entry ⟨address, way, e⟩)
    (h : Under rows address way e b) : Shown rows entry b := by
  induction h with
  | self => exact hshown
  | deeper off here _ ih => exact ih (hshown.below off here)

theorem GoneInto.under {name : String} (h : GoneInto rows entry address (name :: way))
    (here : (edgesOf rows name)[i]? = some e) : ∃ j d, (edgesOf rows entry)[j]? = some d ∧
      Under rows [j] [entry] d ⟨address ++ [i], name :: way, e⟩ := by
  generalize hway : name :: way = all at h
  induction h generalizing name way i e with
  | entry =>
    obtain ⟨rfl, rfl⟩ := List.cons.inj hway
    exact ⟨i, e, here, .self⟩
  | target above here' off ih =>
    obtain ⟨rfl, rfl⟩ := List.cons.inj hway
    obtain ⟨j, d, hd, hunder⟩ := ih here' rfl
    exact ⟨j, d, hd, hunder.concat off here⟩

theorem shown_iff : Shown rows entry b ↔
    ∃ i e, (edgesOf rows entry)[i]? = some e ∧ Under rows [i] [entry] e b := by
  constructor
  · intro h
    cases h with
    | edge above here => exact above.under here
  · rintro ⟨i, e, here, hunder⟩
    exact .of_under (.edge .entry here) hunder

/-! ### Up to the entry -/

/-- The step by which a module is gone into can be read off its address. -/
theorem GoneInto.of_concat (h : GoneInto rows entry (address ++ [i]) way) :
    ∃ name above e, way = e.moduleName :: name :: above ∧
      GoneInto rows entry address (name :: above) ∧ (edgesOf rows name)[i]? = some e ∧
      e.moduleName ∉ name :: above := by
  generalize haddress : address ++ [i] = full at h
  cases h with
  | entry => simp at haddress
  | target above here off =>
    obtain ⟨rfl, hi⟩ := List.append_inj' haddress rfl
    obtain rfl := List.singleton_inj.mp hi
    exact ⟨_, _, _, rfl, above, here, off⟩

theorem GoneInto.way_unique {other : List String} (h : GoneInto rows entry address way)
    (k : GoneInto rows entry address other) : way = other := by
  induction h generalizing other with
  | entry =>
    generalize hnil : ([] : List Nat) = empty at k
    cases k with
    | entry => rfl
    | target => simp at hnil
  | target above here off ih =>
    obtain ⟨name, up, e, rfl, hup, he, -⟩ := k.of_concat
    obtain ⟨rfl, rfl⟩ := List.cons.inj (ih hup)
    rw [Option.some.inj (here.symm.trans he)]

theorem GoneInto.of_front {front : List Nat} (h : GoneInto rows entry address way)
    (hfront : front <+: address) : ∃ up, GoneInto rows entry front up := by
  induction h with
  | entry =>
    obtain rfl := List.prefix_nil.mp hfront
    exact ⟨_, .entry⟩
  | target above here off ih =>
    rcases List.prefix_concat_iff.mp hfront with rfl | hfront
    · exact ⟨_, above.target here off⟩
    · exact ih hfront

/-- At a cycle the tree goes no further. -/
theorem Shown.eq_of_cycle (hb : Shown rows entry b) (hon : b.edge.moduleName ∈ b.way)
    (hc : Shown rows entry c) (hup : b.address <+: c.address) : c = b := by
  obtain ⟨above, here⟩ := hb
  obtain ⟨above', here'⟩ := hc
  rcases List.prefix_concat_iff.mp hup with hsame | hbelow
  · obtain ⟨rfl, hi⟩ := List.append_inj' hsame rfl
    obtain rfl := List.singleton_inj.mp hi
    obtain ⟨rfl, rfl⟩ := List.cons.inj (above.way_unique above')
    rw [Option.some.inj (here.symm.trans here')]
  · obtain ⟨up, hgone⟩ := above'.of_front hbelow
    obtain ⟨name, way, e, rfl, habove, he, hoff⟩ := hgone.of_concat
    obtain ⟨rfl, rfl⟩ := List.cons.inj (above.way_unique habove)
    rw [Option.some.inj (here.symm.trans he)] at hon
    exact absurd hon hoff

theorem Shown.goneInto (h : Shown rows entry b) (off : b.edge.moduleName ∉ b.way) :
    GoneInto rows entry b.address (b.edge.moduleName :: b.way) := by
  obtain ⟨above, here⟩ := h
  exact above.target here off

/-! ### The lines in their order -/

/-- All lines of a kind, in the order of their addresses. -/
structure Enumerates (kind : Branch → Prop) (lines : List Branch) : Prop where
  ordered : lines.Pairwise fun b c => b.address < c.address
  mem_iff : ∀ b, b ∈ lines ↔ kind b

theorem Enumerates.append {kind kind' : Branch → Prop} {lines lines' : List Branch}
    (h : Enumerates kind lines) (h' : Enumerates kind' lines')
    (hlt : ∀ b c, kind b → kind' c → b.address < c.address) :
    Enumerates (fun b => kind b ∨ kind' b) (lines ++ lines') where
  ordered := List.pairwise_append.mpr ⟨h.ordered, h'.ordered, fun b hb c hc =>
    hlt b c ((h.mem_iff b).mp hb) ((h'.mem_iff c).mp hc)⟩
  mem_iff b := by rw [List.mem_append, h.mem_iff, h'.mem_iff]

theorem Enumerates.congr {kind kind' : Branch → Prop} {lines : List Branch}
    (h : Enumerates kind lines) (heq : ∀ b, kind b ↔ kind' b) : Enumerates kind' lines :=
  ⟨h.ordered, fun b => (h.mem_iff b).trans (heq b)⟩

theorem address_lt_of_below {x : List Nat} (h : address ++ [i] <+: x) : address < x := by
  obtain ⟨rest, rfl⟩ := h
  rw [List.append_assoc]
  have hlt := List.Lex.append_left (· < ·) (List.Lex.nil (a := i) (l := rest)) address
  rwa [List.append_nil] at hlt

theorem address_lt_of_places {x y : List Nat} {j : Nat} (hx : address ++ [i] <+: x)
    (hy : address ++ [j] <+: y) (hij : i < j) : x < y := by
  obtain ⟨rest, rfl⟩ := hx
  obtain ⟨rest', rfl⟩ := hy
  rw [List.append_assoc, List.append_assoc]
  exact List.Lex.append_left (· < ·) (List.Lex.rel hij) address

/-- The lines of the edges of a module from the `k`-th on. -/
def FromPlace (rows : OrderedMap String (List Edge)) (address : List Nat) (way : List String)
    (k : Nat) (es : List Edge) (b : Branch) : Prop :=
  ∃ i e, es[i]? = some e ∧ Under rows (address ++ [k + i]) way e b

variable {k : Nat} {es : List Edge} {lines below rest : List Branch}

theorem fromPlace_nil : ¬ FromPlace rows address way k [] b := by
  rintro ⟨i, e, he, -⟩
  cases he

theorem fromPlace_cons : FromPlace rows address way k (e :: es) b ↔
    Under rows (address ++ [k]) way e b ∨ FromPlace rows address way (k + 1) es b := by
  constructor
  · rintro ⟨i, d, hd, hunder⟩
    cases i with
    | zero =>
      obtain rfl := Option.some.inj hd
      exact .inl hunder
    | succ i => exact .inr ⟨i, d, hd, by rwa [Nat.add_right_comm]⟩
  · rintro (hunder | ⟨i, d, hd, hunder⟩)
    · exact ⟨0, e, rfl, hunder⟩
    · exact ⟨i + 1, d, hd, by rwa [Nat.add_right_comm] at hunder⟩

theorem under_iff_of_off (off : e.moduleName ∉ way) : Under rows address way e b ↔
    b = ⟨address, way, e⟩ ∨
      FromPlace rows address (e.moduleName :: way) 0 (edgesOf rows e.moduleName) b := by
  constructor
  · intro h
    cases h with
    | self => exact .inl rfl
    | @deeper _ _ _ i d _ _ here hunder => exact .inr ⟨i, d, here, by rwa [Nat.zero_add]⟩
  · rintro (rfl | ⟨i, d, here, hunder⟩)
    · exact .self
    · exact .deeper off here (by rwa [Nat.zero_add] at hunder)

theorem under_iff_of_cycle (hon : e.moduleName ∈ way) :
    Under rows address way e b ↔ b = ⟨address, way, e⟩ := by
  constructor
  · intro h
    cases h with
    | self => rfl
    | deeper off => exact absurd hon off
  · rintro rfl
    exact .self

theorem Enumerates.single (b : Branch) : Enumerates (· = b) [b] where
  ordered := List.pairwise_singleton ..
  mem_iff _ := List.mem_singleton

theorem enumerates_descend (off : e.moduleName ∉ way)
    (h : Enumerates (FromPlace rows address (e.moduleName :: way) 0 (edgesOf rows e.moduleName))
      below) : Enumerates (Under rows address way e) (⟨address, way, e⟩ :: below) := by
  refine ((Enumerates.single ⟨address, way, e⟩).append h ?_).congr fun b =>
    (under_iff_of_off off).symm
  rintro b c rfl ⟨i, d, -, hunder⟩
  exact address_lt_of_below hunder.address_front

theorem enumerates_cons (h : Enumerates (Under rows (address ++ [k]) way e) below)
    (hrest : Enumerates (FromPlace rows address way (k + 1) es) rest) :
    Enumerates (FromPlace rows address way k (e :: es)) (below ++ rest) := by
  refine (h.append hrest ?_).congr fun b => fromPlace_cons.symm
  rintro b c hb ⟨i, d, -, hc⟩
  exact address_lt_of_places hb.address_front hc.address_front (by omega)

/-! ### The printed lines -/

theorem treeLines_nil (depth : Nat) : treeLines rows way depth [] = [] := by
  rw [treeLines]

theorem treeLines_cycle (depth : Nat) (hon : e.moduleName ∈ way) :
    treeLines rows way depth (e :: es) =
      (indent depth ++ e.moduleName ++ " (cycle)") :: treeLines rows way depth es := by
  rw [treeLines, dif_pos hon]

theorem treeLines_descend (depth : Nat) (off : e.moduleName ∉ way) :
    treeLines rows way depth (e :: es) = (indent depth ++ e.moduleName ++ marker e) ::
      treeLines rows (e.moduleName :: way) (depth + 1) (edgesOf rows e.moduleName) ++
        treeLines rows way depth es := by
  rw [treeLines, dif_neg off, edgesOf]
  split
  · next hrow => rw [hrow, Option.getD_some]
  · next hrow => rw [hrow, Option.getD_none, treeLines_nil]

/-- Induction along the lines. On the way down there are fewer and fewer modules off the path. -/
theorem lines_induction (rows : OrderedMap String (List Edge))
    {motive : List String → Nat → List Edge → Prop}
    (nil : ∀ way depth, motive way depth [])
    (cycle : ∀ way depth e es, e.moduleName ∈ way → motive way depth es →
      motive way depth (e :: es))
    (descend : ∀ way depth e es, e.moduleName ∉ way →
      motive (e.moduleName :: way) (depth + 1) (edgesOf rows e.moduleName) →
      motive way depth es → motive way depth (e :: es))
    (way : List String) (depth : Nat) (es : List Edge) : motive way depth es := by
  induction way, depth, es using treeLines.induct rows with
  | case1 way depth => exact nil way depth
  | case2 way depth e es hon ih => exact cycle way depth e es hon ih
  | case3 way depth e es off ihBelow ih =>
    refine descend way depth e es off ?_ ih
    rw [edgesOf]
    cases hrow : rows.get? e.moduleName with
    | none => exact nil ..
    | some edges => exact ihBelow edges hrow

/-- What is printed below a module are the lines of its edges, in order. -/
theorem exists_branches (rows : OrderedMap String (List Edge)) (way : List String) (depth : Nat)
    (es : List Edge) (hdepth : depth = way.length + 1) (address : List Nat) (k : Nat) :
    ∃ lines, Enumerates (FromPlace rows address way k es) lines ∧
      treeLines rows way depth es = lines.map Branch.line := by
  induction way, depth, es using lines_induction rows generalizing address k with
  | nil way depth =>
    refine ⟨[], ⟨.nil, fun b => iff_of_false List.not_mem_nil fromPlace_nil⟩, treeLines_nil depth⟩
  | cycle way depth e es hon ih =>
    obtain ⟨rest, hrest, hlines⟩ := ih hdepth address (k + 1)
    have hself : Enumerates (Under rows (address ++ [k]) way e) [⟨address ++ [k], way, e⟩] :=
      (Enumerates.single _).congr fun b => (under_iff_of_cycle hon).symm
    refine ⟨_, enumerates_cons hself hrest, ?_⟩
    rw [treeLines_cycle depth hon, hlines, hdepth, List.singleton_append, List.map_cons,
      Branch.line, Branch.mark, if_pos hon]
  | descend way depth e es off ihBelow ih =>
    obtain ⟨below, hbelow, hlinesBelow⟩ := ihBelow (by rw [hdepth]; rfl) (address ++ [k]) 0
    obtain ⟨rest, hrest, hlines⟩ := ih hdepth address (k + 1)
    refine ⟨_, enumerates_cons (enumerates_descend off hbelow) hrest, ?_⟩
    rw [treeLines_descend depth off, hlinesBelow, hlines, hdepth, List.map_append, List.map_cons,
      Branch.line, Branch.mark, if_neg off]

theorem Enumerates.lists (h : Enumerates (Shown rows entry) lines) : Lists rows entry lines where
  ordered := h.ordered
  shown := h.mem_iff
  marked b _ := b.mark_eq_cycle_iff
  stops b hb hon c hc hup :=
    ((h.mem_iff b).mp hb).eq_of_cycle hon ((h.mem_iff c).mp hc) hup
  descends b hb off := ((h.mem_iff b).mp hb).goneInto off

theorem exists_lists (rows : OrderedMap String (List Edge)) (entry : String) :
    ∃ lines, Lists rows entry lines ∧
      treeLines rows [entry] 2 (edgesOf rows entry) = lines.map Branch.line := by
  obtain ⟨lines, h, hlines⟩ := exists_branches rows [entry] 2 (edgesOf rows entry) rfl [] 0
  refine ⟨lines, (h.congr fun b => ?_).lists, hlines⟩
  rw [shown_iff]
  simp only [FromPlace, List.nil_append, Nat.zero_add]

/-! ### The procedure -/

/-- Writing the lines of some edges. The set of names on the path is handed on from step to step:
a name is put in before its module is gone into, and taken out of what comes back. -/
inductive Writes (rows : OrderedMap String (List Edge)) :
    Finset String → Nat → List Edge → List String → Finset String → Prop
  | done {path depth} : Writes rows path depth [] [] path
  | cycle {path depth e es lines after} (on : e.moduleName ∈ path)
      (rest : Writes rows path depth es lines after) :
      Writes rows path depth (e :: es)
        ((indent depth ++ e.moduleName ++ " (cycle)") :: lines) after
  | descend {path within depth e es below lines after} (off : e.moduleName ∉ path)
      (inner : Writes rows (insert e.moduleName path) (depth + 1) (edgesOf rows e.moduleName)
        below within)
      (rest : Writes rows (within.erase e.moduleName) depth es lines after) :
      Writes rows path depth (e :: es)
        ((indent depth ++ e.moduleName ++ marker e) :: below ++ lines) after

theorem erase_toFinset_cons {name : String} (off : name ∉ way) :
    (name :: way).toFinset.erase name = way.toFinset := by
  rw [List.toFinset_cons, Finset.erase_insert (by rwa [List.mem_toFinset])]

theorem writes_treeLines (rows : OrderedMap String (List Edge)) (way : List String) (depth : Nat)
    (es : List Edge) :
    Writes rows way.toFinset depth es (treeLines rows way depth es) way.toFinset := by
  induction way, depth, es using lines_induction rows with
  | nil way depth =>
    rw [treeLines_nil]
    exact .done
  | cycle way depth e es hon ih =>
    rw [treeLines_cycle depth hon]
    exact .cycle (List.mem_toFinset.mpr hon) ih
  | descend way depth e es off ihBelow ih =>
    rw [treeLines_descend depth off]
    rw [List.toFinset_cons] at ihBelow
    refine .descend (by rwa [List.mem_toFinset]) ihBelow ?_
    rwa [← List.toFinset_cons, erase_toFinset_cons off]

theorem Writes.unique {path after : Finset String} {depth : Nat} {lines : List String}
    (h : Writes rows path depth es lines after) (hpath : path = way.toFinset) :
    lines = treeLines rows way depth es ∧ after = way.toFinset := by
  induction h generalizing way with
  | done => exact ⟨(treeLines_nil _).symm, hpath⟩
  | cycle on _ ih =>
    obtain ⟨rfl, hafter⟩ := ih hpath
    rw [hpath, List.mem_toFinset] at on
    exact ⟨(treeLines_cycle _ on).symm, hafter⟩
  | @descend path within depth e es below lines after off _ _ ihInner ih =>
    rw [hpath, List.mem_toFinset] at off
    obtain ⟨rfl, hwithin⟩ := @ihInner (e.moduleName :: way)
      (by rw [hpath, List.toFinset_cons])
    obtain ⟨rfl, hafter⟩ := @ih way (by rw [hwithin, erase_toFinset_cons off])
    exact ⟨(treeLines_descend _ off).symm, hafter⟩

/-- From every set of names, writing comes to an end, in one way only, and leaves the set alone. -/
theorem writes_iff {after : Finset String} {depth : Nat} {lines : List String} :
    Writes rows way.toFinset depth es lines after ↔
      lines = treeLines rows way depth es ∧ after = way.toFinset :=
  ⟨fun h => h.unique rfl, by rintro ⟨rfl, rfl⟩; exact writes_treeLines ..⟩

/-- The tree of every analysis, whatever cycles and repeated edges its graph has: writing ends and
leaves the path as it was, and the lines are those of the edges of the modules gone into. -/
theorem tree_exact (a : Analysis) :
    (∀ path depth edges, ∃ lines, ∀ lines' after,
      Writes a.dependencyGraph path depth edges lines' after ↔ lines' = lines ∧ after = path) ∧
    (a.entryModule = none → tree a = []) ∧
    ∀ entry, a.entryModule = some entry → ∃ lines : List Branch,
      tree a = "" :: "Dependency tree" :: ("  " ++ entry.moduleName) :: lines.map Branch.line ∧
      Lists a.dependencyGraph entry.moduleName lines ∧
      Writes a.dependencyGraph {entry.moduleName} 2 (edgesOf a.dependencyGraph entry.moduleName)
        (lines.map Branch.line) {entry.moduleName} := by
  refine ⟨fun path depth edges => ?_, fun hnone => ?_, fun entry hentry => ?_⟩
  · obtain ⟨way, rfl⟩ : ∃ way : List String, path = way.toFinset :=
      ⟨path.toList, path.toList_toFinset.symm⟩
    exact ⟨_, fun lines after => writes_iff⟩
  · rw [tree, hnone]
  · obtain ⟨lines, hlists, hlines⟩ := exists_lists a.dependencyGraph entry.moduleName
    refine ⟨lines, ?_, hlists, ?_⟩
    · rw [← hlines, tree, hentry]
      rfl
    · rw [← hlines]
      exact writes_treeLines a.dependencyGraph [entry.moduleName] 2 _

/-- A repeated edge is gone into each time: its name is off the path again. -/
example : let edge (name : String) : Edge := ⟨name, name, none, false, false, false⟩
    treeLines (.ofList [("a", [edge "b", edge "b"]), ("b", [edge "a"])]) ["a"] 2
      [edge "b", edge "b"] = ["    b", "      a (cycle)", "    b", "      a (cycle)"] := by
  cbv

end LuaBundle.Report
