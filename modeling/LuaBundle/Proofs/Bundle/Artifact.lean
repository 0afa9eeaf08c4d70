import LuaBundle.Bundle.Run
import LuaBundle.Proofs.FileTree
import Mathlib.Data.String.Basic

/-!
# What a run leaves behind

Every fault stops a run before the output is touched, whichever stage it comes from; all that can
stay of a run that failed is directories. A run that succeeds has written the rendered bundle to the
configured output and nothing else.
-/
namespace LuaBundle

theorem Lua.utf8Size_eq_utf8ByteSize (text : List Char) :
    utf8Size text = (String.ofList text).utf8ByteSize := by
  rw [String.utf8ByteSize_ofList]
  induction text with
  | nil => rfl
  | cons c cs ih => rw [utf8Size_cons, String.utf8Len_cons, ih, Nat.add_comm]

namespace Bundle

variable {t t' : FileTree} {output : Path} {text : String}

theorem keeps_makeParent (t : FileTree) (p : Path) (l : Location) :
    t.Keeps (makeParent t p).1 l := by
  unfold makeParent
  split
  · next parent hparent =>
    by_cases hempty : parent.text = ""
    · rw [if_pos hempty]
      exact .refl t l
    · rw [if_neg hempty]
      exact t.keeps_createDirectories parent l
  · exact .refl t l

theorem keeps_of_write_fault {failure : Failure} (h : write t output text = (t', some failure))
    (l : Location) : t.Keeps t' l := by
  have hparent := keeps_makeParent t output l
  unfold write at h
  split at h
  · next made parent fault hmade =>
    cases h
    rwa [hmade] at hparent
  · next made hmade =>
    rw [hmade] at hparent
    split at h
    · cases h
      exact hparent
    · cases h

/-- The output holds the text, and nothing else has changed. -/
structure Written (t t' : FileTree) (output : Path) (text : String) (l : Location) : Prop where
  located : t'.locate output = .ok l
  content : t'.get? l = some (.file (.text text))
  read : t'.readText output = .ok text
  /-- No directory has made room for the file. -/
  replaced : t.get? l ≠ some .directory
  others : ∀ l', l' ≠ l → t.Keeps t' l'

theorem written_of_write (h : write t output text = (t', none)) :
    ∃ l, Written t t' output text l := by
  unfold write at h
  split at h
  · cases h
  · next made hmade =>
    split at h
    · cases h
    · next written hwritten =>
      cases h
      have hkept : ∀ l, t.Keeps made l := fun l => by
        simpa only [hmade] using keeps_makeParent t output l
      obtain ⟨l, hdirectory, hlocate, hget, hread, hothers⟩ := FileTree.writeText_spec hwritten
      refine ⟨l, hlocate, hget, hread, fun hwas => hdirectory ((hkept l).of_some hwas), ?_⟩
      intro l' hne
      exact (hkept l').trans (.inl (hothers l' hne))

section Run

variable {lookup : String → Option String} {draws : Obfuscation.Draws} {config : Config}
  {a : Analysis} {rendered : List Char} {failure : Failure}

theorem run_of_stop (ha : analyze t lookup config = a)
    (hstop : (!a.success || config.analyzeOnly) = true) :
    run t lookup draws config = (a, t) := by
  simp only [run, ha, if_pos hstop]

theorem run_of_render_fault (ha : analyze t lookup config = a)
    (hgo : ¬ (!a.success || config.analyzeOnly) = true)
    (hrender : render t draws a = .error failure) :
    run t lookup draws config = (addError a failure, t) := by
  simp only [run, ha, if_neg hgo, hrender]

theorem run_of_write_fault (ha : analyze t lookup config = a)
    (hgo : ¬ (!a.success || config.analyzeOnly) = true)
    (hrender : render t draws a = .ok rendered)
    (hwrite : write t config.output (String.ofList rendered) = (t', some failure)) :
    run t lookup draws config = (addError a failure, t') := by
  simp only [run, ha, if_neg hgo, hrender, hwrite]

theorem run_of_write (ha : analyze t lookup config = a)
    (hgo : ¬ (!a.success || config.analyzeOnly) = true)
    (hrender : render t draws a = .ok rendered)
    (hwrite : write t config.output (String.ofList rendered) = (t', none)) :
    run t lookup draws config =
      ({ a with metrics := { a.metrics with bundleSizeBytes := Lua.utf8Size rendered } }, t') := by
  simp only [run, ha, if_neg hgo, hrender, hwrite]

end Run

/-- A run that fails or only analyses keeps every file. Any other run has written the rendered
bundle to its output and kept every other file. -/
theorem run_writes_output (t : FileTree) (lookup : String → Option String)
    (draws : Obfuscation.Draws) (config : Config) :
    let (a, t') := run t lookup draws config
    (a.success = false ∨ config.analyzeOnly = true → ∀ l, t.Keeps t' l) ∧
    (a.success = true → config.analyzeOnly = false →
      ∃ text l, render t draws (analyze t lookup config) = .ok text ∧
        Written t t' config.output (String.ofList text) l ∧
        a.metrics.bundleSizeBytes = (String.ofList text).utf8ByteSize) := by
  generalize ha : analyze t lookup config = a
  by_cases hstop : (!a.success || config.analyzeOnly) = true
  · rw [run_of_stop ha hstop]
    refine ⟨fun _ l => .refl t l, fun hsuccess hfull => ?_⟩
    rw [hsuccess, hfull] at hstop
    cases hstop
  have hfault (failure : Failure) : (addError a failure).success ≠ true := by
    simp [addError, Analysis.success]
  cases hrender : render t draws a with
  | error failure =>
    rw [run_of_render_fault ha hstop hrender]
    exact ⟨fun _ l => .refl t l, fun hsuccess => absurd hsuccess (hfault failure)⟩
  | ok text =>
    rcases hwrite : write t config.output (String.ofList text) with ⟨t', _ | failure⟩
    · rw [run_of_write ha hstop hrender hwrite]
      obtain ⟨l, hl⟩ := written_of_write hwrite
      obtain ⟨hsuccess, hfull⟩ : a.success = true ∧ config.analyzeOnly = false := by
        simpa using hstop
      refine ⟨fun hfailed => ?_, fun _ _ => ⟨text, l, rfl, hl, Lua.utf8Size_eq_utf8ByteSize text⟩⟩
      rcases hfailed with hfailed | honly
      · exact absurd (hsuccess.symm.trans hfailed) nofun
      · exact absurd (hfull.symm.trans honly) nofun
    · rw [run_of_write_fault ha hstop hrender hwrite]
      exact ⟨fun _ => keeps_of_write_fault hwrite, fun hsuccess => absurd hsuccess (hfault failure)⟩

end Bundle

end LuaBundle
