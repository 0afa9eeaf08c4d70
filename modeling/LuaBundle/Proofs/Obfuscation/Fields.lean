import LuaBundle.Proofs.Lua.Beginnings
import LuaBundle.Proofs.Lua.Chunks
import LuaBundle.Proofs.Lua.Points
import LuaBundle.Proofs.Obfuscation.Pipeline

/-!
# Fields, keys and labels in the pipeline

No plan names a field, a key or a label, but the replacement of tags goes by the shape of a name. So
these keep their names as long as they do not look like tags.
-/
namespace LuaBundle.Lua

/-- A name that is no variable is never replaced. -/
theorem plan_other {options : RenameOptions} {b : Tree .block} {out : List (Option (List Char))}
    (h : plan options b.tokens = .ok out) {i : Nat} (hrole : (b.roles [] 0)[i]? = some .other) :
    out[i]? = some none := by
  obtain ⟨t, ht, -⟩ := getElem?_of_forall₂ (b.bound [] 0).fits hrole
  unfold plan at h
  split at h
  · obtain ⟨s, hwalk⟩ := walk_seen b
    rw [hwalk] at h
    cases h
    obtain ⟨r, hseen, hother⟩ := getElem?_of_forall₂ (b.keeps .outermost [] 0).others.flip hrole
    obtain rfl := hother rfl
    rw [List.getElem?_zipWith, ht, bindings, List.getElem?_map, hseen]
    rfl
  · cases h
    rw [List.getElem?_map, ht]
    rfl

theorem Tree.head_ne_hash (b : Tree .block) : b.tokens.head? ≠ some (.symbol .hash) := by
  cases b with
  | nothing | ret closed | retValues es closed => nofun
  | cons s b =>
    obtain ⟨p, ts, htokens, hp, -⟩ := s.leads
    rw [tokens, htokens]
    intro hhead
    rw [Option.some.inj hhead] at hp
    cases hp

end LuaBundle.Lua

namespace LuaBundle.Obfuscation

open Lua

section

variable {s : Settings} {draws : Draws} {text chunk out : List Char}

end

/-- `t.x = t.L_1_x` -/
def lookalike : Tree .block :=
  .cons (.assign (.target (.member (.read (.name ['t'])) ['x']))
      (.one (.plain (.read (.member (.read (.name ['t'])) ['L', '_', '1', '_', 'x'])))))
    .nothing

end LuaBundle.Obfuscation
