import LuaBundle.Proofs.Obfuscation.Identifier
import LuaBundle.Proofs.Obfuscation.Splicing
import LuaBundle.Proofs.Obfuscation.Tag
import Mathlib.Data.List.Nodup

/-!
# Tags are replaced without collisions

Every tag among the names gets a fresh name of its own, different from the names that stay. The text
is read again with these names in the place of the tags, and nothing else in it changes.
-/
namespace LuaBundle.Obfuscation

open Lua

/-! ### A name for each tag -/

/-- Every name in the table was fresh and is in use now, and none is there twice. -/
structure Assigned (start g : Generator) (table : List (List Char × List Char)) : Prop where
  min_eq : g.min = start.min
  max_eq : g.max = start.max
  used : ∀ n, n ∈ start.used ∨ n ∈ table.map Prod.snd → n ∈ g.used
  fresh : ∀ p ∈ table, Fresh start p.2
  nodup : (table.map Prod.snd).Nodup

theorem Assigned.nil (g : Generator) : Assigned g g [] :=
  ⟨rfl, rfl, fun _ hn => hn.elim id nofun, nofun, .nil⟩

theorem Assigned.generate {start g g' : Generator} {table : List (List Char × List Char)}
    {tag name : List Char} (h : Assigned start g table) (hname : g.generate = (some name, g')) :
    Assigned start g' (table ++ [(tag, name)]) := by
  obtain ⟨hfresh, hmin, hmax, hused⟩ := Generator.generateWithin_some hname
  refine ⟨hmin.trans h.min_eq, hmax.trans h.max_eq, ?_, ?_, ?_⟩
  · intro n hn
    rw [hused]
    simp only [List.map_append, List.map_cons, List.map_nil, List.mem_append,
      List.mem_singleton, ← or_assoc] at hn
    rcases hn with hn | rfl
    · exact List.mem_cons_of_mem _ (h.used n hn)
    · exact List.mem_cons_self ..
  · intro p hp
    rcases List.mem_append.mp hp with hp | hp
    · exact h.fresh p hp
    · obtain rfl := List.mem_singleton.mp hp
      exact hfresh.congr h.min_eq.symm h.max_eq.symm fun hstart =>
        hfresh.unused (h.used _ (.inl hstart))
  · rw [List.map_append, List.nodup_append]
    refine ⟨h.nodup, by simp, ?_⟩
    rintro a ha b hb rfl
    obtain rfl : a = name := by simpa using hb
    exact hfresh.unused (h.used _ (.inr ha))

theorem assignNames_known {table : List (List Char × List Char)} {tag name : List Char}
    (h : table.lookup tag = some name) (g : Generator) (tags : List (List Char)) :
    assignNames g table (tag :: tags) = assignNames g table tags :=
  if_pos (by rw [h]; rfl)

theorem assignNames_new {table : List (List Char × List Char)} {tag : List Char}
    (h : table.lookup tag = none) (g : Generator) (tags : List (List Char)) :
    assignNames g table (tag :: tags) =
      match g.generate with
      | (some name, g) => assignNames g (table ++ [(tag, name)]) tags
      | (none, g) => (none, g) :=
  if_neg (by simp [h])

theorem assignNames_some {start g g' : Generator} {table final : List (List Char × List Char)}
    {tags : List (List Char)} (h : Assigned start g table)
    (hout : assignNames g table tags = (some final, g')) :
    Assigned start g' final ∧ (∃ more, final = table ++ more) ∧
      ∀ tag ∈ tags, ∃ name, final.lookup tag = some name := by
  induction tags generalizing g table with
  | nil =>
    cases hout
    exact ⟨h, ⟨[], (List.append_nil _).symm⟩, nofun⟩
  | cons tag tags ih =>
    cases hlookup : table.lookup tag with
    | some name =>
      rw [assignNames_known hlookup] at hout
      obtain ⟨hfinal, ⟨more, rfl⟩, htags⟩ := ih h hout
      have htag : (table ++ more).lookup tag = some name := by simp [List.lookup_append, hlookup]
      exact ⟨hfinal, ⟨more, rfl⟩, List.forall_mem_cons.mpr ⟨⟨name, htag⟩, htags⟩⟩
    | none =>
      rw [assignNames_new hlookup] at hout
      split at hout
      · rename_i name g' hname
        obtain ⟨hfinal, ⟨more, rfl⟩, htags⟩ := ih (h.generate hname) hout
        have htag : (table ++ [(tag, name)] ++ more).lookup tag = some name := by
          simp [List.lookup_append, hlookup]
        exact ⟨hfinal, ⟨(tag, name) :: more, List.append_assoc ..⟩,
          List.forall_mem_cons.mpr ⟨⟨name, htag⟩, htags⟩⟩
      · cases hout

/-! ### The renaming -/

/-- The names of a text are renamed, the tags to fresh names and the others not at all. -/
structure Untags (g : Generator) (names : List (List Char))
    (rename : List Char → Option (List Char)) : Prop where
  kept : ∀ n, isTag n = false → rename n = none
  fresh : ∀ n new, rename n = some new → Fresh g new
  total : ∀ n ∈ names, isTag n = true → ∃ new, rename n = some new
  injective : ∀ n m new, rename n = some new → rename m = some new → n = m
  apart : ∀ n new, rename n = some new → ∀ m ∈ names, isTag m = false → m ≠ new

variable {g : Generator} {names : List (List Char)} {rename : List Char → Option (List Char)}

/-- Different names stay different. -/
theorem Untags.getD_eq_iff (h : Untags g names rename) {n m : List Char} (hn : n ∈ names)
    (hm : m ∈ names) : (rename n).getD n = (rename m).getD m ↔ n = m := by
  constructor
  · intro heq
    cases htn : isTag n with
    | true =>
      obtain ⟨new, hnew⟩ := h.total n hn htn
      cases htm : isTag m with
      | true =>
        obtain ⟨new', hnew'⟩ := h.total m hm htm
        rw [hnew, hnew', Option.getD_some, Option.getD_some] at heq
        exact h.injective n m new hnew (heq ▸ hnew')
      | false =>
        rw [hnew, h.kept m htm, Option.getD_some, Option.getD_none] at heq
        exact absurd heq.symm (h.apart n new hnew m hm htm)
    | false =>
      rw [h.kept n htn, Option.getD_none] at heq
      cases htm : isTag m with
      | true =>
        obtain ⟨new, hnew⟩ := h.total m hm htm
        rw [hnew, Option.getD_some] at heq
        exact absurd heq (h.apart m new hnew n hn htn)
      | false => rwa [h.kept m htm, Option.getD_none] at heq
  · rintro rfl
    rfl

theorem respelled_name (rename : List Char → Option (List Char)) (n : List Char) :
    respelled rename (.name n) = .name ((rename n).getD n) :=
  Token.respell_name n (rename n)

def nameTexts (found : List Lexeme) : List (List Char) := (nameLexemes found).map (·.token.text)

theorem exists_name_of_isName {t : Token} (h : t.isName = true) : ∃ n, t = .name n := by
  cases t with
  | name n => exact ⟨n, rfl⟩
  | _ => cases h

theorem mem_nameTexts {found : List Lexeme} {n : List Char} :
    n ∈ nameTexts found ↔ ∃ x ∈ found, x.token = .name n := by
  simp only [nameTexts, nameLexemes, List.mem_map, List.mem_filter]
  constructor
  · rintro ⟨x, ⟨hx, hname⟩, rfl⟩
    obtain ⟨n, hn⟩ := exists_name_of_isName hname
    exact ⟨x, hx, by rw [hn]; rfl⟩
  · rintro ⟨x, hx, hn⟩
    exact ⟨x, ⟨hx, by rw [hn]; rfl⟩, by rw [hn]; rfl⟩

theorem mem_nameTexts_of_token {found : List Lexeme} {n : List Char}
    (h : .name n ∈ found.map Lexeme.token) : n ∈ nameTexts found :=
  mem_nameTexts.mpr (List.mem_map.mp h)

/-- Without tags among the names, nothing is renamed. -/
theorem untags_none (h : ∀ n ∈ names, isTag n = false) : Untags g names fun _ => none where
  kept _ _ := rfl
  fresh := nofun
  total n hn ht := by
    rw [h n hn] at ht
    cases ht
  injective := nofun
  apart := nofun

theorem mem_of_lookup {table : List (List Char × List Char)} {tag name : List Char}
    (h : table.lookup tag = some name) : (tag, name) ∈ table := by
  obtain ⟨front, back, rfl, -⟩ := List.lookup_eq_some_iff.mp h
  simp

/-- The names from the table rename the tags. -/
theorem untags_table {g' : Generator} {table : List (List Char × List Char)}
    (h : Assigned (g.reserve (names.filter (!isTag ·))) g' table)
    (htable : ∀ tag ∈ names, isTag tag = true → ∃ name, table.lookup tag = some name) :
    Untags g names fun n => if isTag n then table.lookup n else none where
  kept n hn := if_neg (by simp [hn])
  fresh n new hnew := by
    have hfresh := h.fresh _ (mem_of_lookup (Option.ite_none_right_eq_some.mp hnew).2)
    exact hfresh.congr rfl rfl fun hused => hfresh.unused (List.mem_append_right _ hused)
  total n hn ht := by
    rw [if_pos ht]
    exact htable n hn ht
  injective n m new hn hm := by
    have hn' := mem_of_lookup (Option.ite_none_right_eq_some.mp hn).2
    have hm' := mem_of_lookup (Option.ite_none_right_eq_some.mp hm).2
    exact congrArg Prod.fst (List.inj_on_of_nodup_map h.nodup hn' hm' rfl)
  apart n new hnew m hm ht := by
    have hfresh := h.fresh _ (mem_of_lookup (Option.ite_none_right_eq_some.mp hnew).2)
    rintro rfl
    exact hfresh.unused (List.mem_append_left _ (List.mem_filter.mpr ⟨hm, by simp [ht]⟩))

theorem edits_untagged {table : List (List Char × List Char)} {found : List Lexeme}
    (htable : ∀ tag ∈ nameTexts found, isTag tag = true → ∃ name, table.lookup tag = some name) :
    (((nameLexemes found).filter (isTag ·.token.text)).map fun x =>
      (x, (table.lookup x.token.text).getD [])) =
      edits (fun n => if isTag n then table.lookup n else none) found := by
  induction found with
  | nil => rfl
  | cons x found ih =>
    have hrest := ih fun tag htag => by
      obtain ⟨y, hy, hname⟩ := mem_nameTexts.mp htag
      exact htable tag (mem_nameTexts.mpr ⟨y, List.mem_cons_of_mem x hy, hname⟩)
    rw [edits_cons, ← hrest]
    cases htoken : x.token with
    | name n =>
      cases ht : isTag n with
      | true =>
        obtain ⟨new, hnew⟩ := htable n (mem_nameTexts.mpr ⟨x, List.mem_cons_self .., htoken⟩) ht
        simp [nameLexemes, edits, htoken, Token.isName, Token.text, ht, hnew]
      | false => simp [nameLexemes, edits, htoken, Token.isName, Token.text, ht]
    | _ => simp [nameLexemes, edits, htoken, Token.isName]

/-- The replaced text has the tokens of the text with the tags renamed, and the same gaps. -/
theorem tokenize_replaceTags {text out : List Char} {found : List Lexeme}
    (htokens : tokenize text = .ok found) (hout : (replaceTags text g).1 = .ok out) :
    ∃ rename found', Untags g (nameTexts found) rename ∧ tokenize out = .ok found' ∧
      found'.map Lexeme.token = found.map (respelled rename ·.token) ∧
        gaps 0 found' out = gaps 0 found text := by
  have hnothing : (∀ n ∈ nameTexts found, isTag n = false) → out = text →
      ∃ rename found', Untags g (nameTexts found) rename ∧ tokenize out = .ok found' ∧
        found'.map Lexeme.token = found.map (respelled rename ·.token) ∧
          gaps 0 found' out = gaps 0 found text := by
    rintro hnone rfl
    refine ⟨_, found, untags_none hnone, htokens, List.map_congr_left fun x _ => ?_, rfl⟩
    rw [respelled]
    cases x.token <;> rfl
  unfold replaceTags at hout
  split at hout
  · rw [htokens] at hout
    simp only [List.partition_eq_filter_filter] at hout
    split at hout
    · rename_i hempty
      refine hnothing (fun n hn => ?_) (Except.ok.inj hout).symm
      obtain ⟨x, hx, rfl⟩ := List.mem_map.mp hn
      simpa using List.filter_eq_nil_iff.mp (List.isEmpty_iff.mp hempty) x hx
    · split at hout
      · cases hout
      · rename_i table g' hassign
        cases hout
        have hnames : ((nameLexemes found).filter (not ∘ (isTag ·.token.text))).map (·.token.text) =
            (nameTexts found).filter (!isTag ·) := by
          rw [nameTexts, List.filter_map]
          rfl
        rw [hnames] at hassign
        obtain ⟨hassigned, -, htags⟩ := assignNames_some (.nil _) hassign
        have htable : ∀ tag ∈ nameTexts found, isTag tag = true →
            ∃ name, table.lookup tag = some name := by
          intro tag htag ht
          obtain ⟨x, hx, rfl⟩ := List.mem_map.mp htag
          exact htags _ (List.mem_map.mpr ⟨x, List.mem_filter.mpr ⟨hx, ht⟩, rfl⟩)
        have huntags := untags_table hassigned htable
        rw [edits_untagged htable]
        obtain ⟨found', htokens', hrest⟩ :=
          tokenize_splice (fun n new hnew => (huntags.fresh n new hnew).lexed) htokens
        exact ⟨_, found', huntags, htokens', hrest⟩
  · rename_i htags
    refine hnothing ?_ (Except.ok.inj hout).symm
    intro n hn
    obtain ⟨x, hx, hname⟩ := mem_nameTexts.mp hn
    by_contra ht
    exact htags (hasTags_of_tokenize htokens hx hname (by simpa using ht))

theorem forall₂_of_map_eq_map {α β γ : Type} {f : α → γ} {g : β → γ} {as : List α} {bs : List β}
    (h : as.map f = bs.map g) : List.Forall₂ (fun a b => f a = g b) as bs := by
  rw [← List.forall₂_eq_eq_eq] at h
  simpa only [List.forall₂_map_left_iff, List.forall₂_map_right_iff] using h

/-- What becomes of a token: a tag among the names gets a fresh name, and all else stays. -/
inductive Untagged (g : Generator) : Token → Token → Prop
  | kept {t : Token} (h : ∀ n, t = .name n → isTag n = false) : Untagged g t t
  | renamed {n new : List Char} (h : isTag n = true) (hnew : Fresh g new) :
      Untagged g (.name n) (.name new)

theorem Untags.untagged (h : Untags g names rename) {t : Token}
    (ht : ∀ n, t = .name n → n ∈ names) : Untagged g t (respelled rename t) := by
  cases t with
  | name n =>
    rw [respelled_name]
    cases htag : isTag n with
    | true =>
      obtain ⟨new, hnew⟩ := h.total n (ht n rfl) htag
      rw [hnew]
      exact .renamed htag (h.fresh n new hnew)
    | false =>
      rw [h.kept n htag]
      refine .kept ?_
      rintro m ⟨⟩
      exact htag
  | _ => exact .kept nofun

/-- A text without tags among its names stays as it is, and nothing is drawn. -/
theorem replaceTags_untagged {text : List Char} {found : List Lexeme} (g : Generator)
    (htokens : tokenize text = .ok found) (h : ∀ n ∈ nameTexts found, isTag n = false) :
    replaceTags text g = (.ok text, g) := by
  have hnone : (nameLexemes found).filter (isTag ·.token.text) = [] := by
    apply List.filter_eq_nil_iff.mpr
    intro x hx
    simpa using h _ (List.mem_map.mpr ⟨x, hx, rfl⟩)
  unfold replaceTags
  split
  · rw [htokens]
    simp only [List.partition_eq_filter_filter, hnone]
    rfl
  · rfl

end LuaBundle.Obfuscation
