import LuaBundle.Lua.Require
import LuaBundle.Proofs.Lua.Lossless
import Mathlib.Data.List.Forall2

/-!
# The calls that a scan finds

A literal call of `require` has one opening parenthesis, directly behind the word and its blanks, so
two calls never overlap. A scan that goes on behind each call it finds therefore misses none: it
gives the identifiers at all places where the text has a call. The lexer knows fewer blanks than the
scan, so a call that is read as four tokens in a row is among them.
-/
namespace LuaBundle.Lua

/-! ### Literal calls -/

def requireWord : List Char := ['r', 'e', 'q', 'u', 'i', 'r', 'e']

def IsQuote (c : Char) : Prop := c = '\'' ∨ c = '"'

/-- The text is a literal call with this identifier. -/
inductive IsCall : List Char → List Char → Prop
  | call {s₁ s₂ s₃ id : List Char} {q q' : Char}
      (blank₁ : ∀ c ∈ s₁, Text.isBlank c = true) (blank₂ : ∀ c ∈ s₂, Text.isBlank c = true)
      (quote : IsQuote q) (nonempty : id ≠ []) (chars : ∀ c ∈ id, isIdChar c = true)
      (quote' : IsQuote q') (blank₃ : ∀ c ∈ s₃, Text.isBlank c = true) :
      IsCall id (requireWord ++ (s₁ ++ '(' :: (s₂ ++ q :: (id ++ q' :: (s₃ ++ [')'])))))

/-- The text has a call with this identifier behind its first `i` characters. -/
def CallAt (text : List Char) (i : Nat) (id : List Char) : Prop :=
  ∃ call rest, IsCall id call ∧ text.drop i = call ++ rest

theorem IsQuote.not_isBlank {q : Char} (h : IsQuote q) : Text.isBlank q = false := by
  rcases h with rfl | rfl <;> decide

theorem IsQuote.not_isIdChar {q : Char} (h : IsQuote q) : isIdChar q = false := by
  rcases h with rfl | rfl <;> decide

/-! ### One call is read -/

section Reading

variable {text rest id : List Char} {c : Char}

theorem afterMark?_eq_some_iff {mark : List Char} :
    afterMark? mark text = some rest ↔ text = mark ++ rest := by
  unfold afterMark?
  constructor
  · intro h
    split at h
    · next hmark =>
      obtain ⟨rest', rfl⟩ := List.isPrefixOf_iff_prefix.mp hmark
      rw [List.drop_left, Option.some.injEq] at h
      rw [h]
    · cases h
  · rintro rfl
    rw [if_pos (List.isPrefixOf_iff_prefix.mpr (List.prefix_append ..)), List.drop_left]

theorem afterQuote?_eq_some_iff :
    afterQuote? text = some rest ↔ ∃ q, IsQuote q ∧ text = q :: rest := by
  cases text with
  | nil => simp [afterQuote?]
  | cons c r =>
    simp only [afterQuote?, IsQuote, List.cons.injEq]
    constructor
    · intro h
      split at h
      · next hc => exact ⟨c, hc, rfl, Option.some.inj h⟩
      · cases h
    · rintro ⟨q, hq, rfl, rfl⟩
      rw [if_pos hq]

/-- Blanks are skipped up to a character that is none. -/
theorem dropWhile_isBlank_iff (hc : Text.isBlank c = false) :
    text.dropWhile Text.isBlank = c :: rest ↔
      ∃ s, (∀ d ∈ s, Text.isBlank d = true) ∧ text = s ++ c :: rest := by
  constructor
  · intro h
    refine ⟨text.takeWhile Text.isBlank, List.all_eq_true.mp List.all_takeWhile, ?_⟩
    rw [← h, List.takeWhile_append_dropWhile]
  · rintro ⟨s, hs, rfl⟩
    rw [List.dropWhile_append_of_pos hs, List.dropWhile_cons_of_neg (by simp [hc])]

/-- An identifier is read up to a character that belongs to none. -/
theorem identifier?_iff (hc : isIdChar c = false) :
    identifier? text = some (id, c :: rest) ↔
      id ≠ [] ∧ (∀ d ∈ id, isIdChar d = true) ∧ text = id ++ c :: rest := by
  unfold identifier?
  constructor
  · intro h
    split at h
    · cases h
    · next first more htake =>
      obtain ⟨rfl, hdrop⟩ := Prod.mk.inj (Option.some.inj h)
      refine ⟨by simp, ?_, ?_⟩
      · rw [← htake]
        exact List.all_eq_true.mp List.all_takeWhile
      · rw [← hdrop, ← htake, List.takeWhile_append_dropWhile]
  · rintro ⟨hne, hid, rfl⟩
    obtain ⟨first, more, rfl⟩ := List.exists_cons_of_ne_nil hne
    rw [List.takeWhile_append_of_pos hid, List.dropWhile_append_of_pos hid,
      List.takeWhile_cons_of_neg (by simp [hc]), List.dropWhile_cons_of_neg (by simp [hc]),
      List.append_nil]

theorem requireCall?_eq_some_iff :
    requireCall? text = some (id, rest) ↔ ∃ call, IsCall id call ∧ text = call ++ rest := by
  constructor
  · intro h
    simp only [requireCall?, Option.bind_eq_bind, Option.bind_eq_some_iff] at h
    obtain ⟨a, ha, b, hb, c, hc, ⟨found, d⟩, hd, e, he, f, hf, heq⟩ := h
    cases heq
    obtain rfl := afterMark?_eq_some_iff.mp ha
    obtain ⟨s₁, hs₁, rfl⟩ := (dropWhile_isBlank_iff (by decide)).mp (afterMark?_eq_some_iff.mp hb)
    obtain ⟨q, hq, hopen⟩ := afterQuote?_eq_some_iff.mp hc
    obtain ⟨s₂, hs₂, rfl⟩ := (dropWhile_isBlank_iff hq.not_isBlank).mp hopen
    obtain ⟨q', hq', rfl⟩ := afterQuote?_eq_some_iff.mp he
    obtain ⟨hne, hid, rfl⟩ := (identifier?_iff hq'.not_isIdChar).mp hd
    obtain ⟨s₃, hs₃, rfl⟩ := (dropWhile_isBlank_iff (by decide)).mp (afterMark?_eq_some_iff.mp hf)
    exact ⟨_, .call hs₁ hs₂ hq hne hid hq' hs₃, by simp [requireWord]⟩
  · rintro ⟨call, hcall, rfl⟩
    cases hcall with
    | @call s₁ s₂ s₃ id q q' hs₁ hs₂ hq hne hid hq' hs₃ =>
      simp only [requireCall?, Option.bind_eq_bind, Option.bind_eq_some_iff, List.append_assoc,
        List.cons_append, List.nil_append]
      exact ⟨_, afterMark?_eq_some_iff.mpr rfl,
        _, afterMark?_eq_some_iff.mpr ((dropWhile_isBlank_iff (by decide)).mpr ⟨s₁, hs₁, rfl⟩),
        _, afterQuote?_eq_some_iff.mpr
          ⟨q, hq, (dropWhile_isBlank_iff hq.not_isBlank).mpr ⟨s₂, hs₂, rfl⟩⟩,
        _, (identifier?_iff hq'.not_isIdChar).mpr ⟨hne, hid, rfl⟩,
        _, afterQuote?_eq_some_iff.mpr ⟨q', hq', rfl⟩,
        _, afterMark?_eq_some_iff.mpr ((dropWhile_isBlank_iff (by decide)).mpr ⟨s₃, hs₃, rfl⟩),
        rfl⟩

end Reading

/-! ### Calls do not overlap -/

namespace IsCall

variable {id id' call call' a b rest rest' : List Char}

theorem ne_nil (h : IsCall id call) : call ≠ [] := by
  cases h
  simp [requireWord]

/-- A call up to its opening parenthesis, and the rest, which has no second one. -/
theorem opening (h : IsCall id call) : ∃ s tail, (∀ c ∈ s, Text.isBlank c = true) ∧
    call = requireWord ++ s ++ '(' :: (tail ++ [')']) ∧ '(' ∉ tail := by
  cases h with
  | @call s₁ s₂ s₃ id q q' hs₁ hs₂ hq hne hid hq' hs₃ =>
    refine ⟨s₁, s₂ ++ q :: (id ++ q' :: s₃), hs₁, by simp, ?_⟩
    have hblank : ∀ s : List Char, (∀ c ∈ s, Text.isBlank c = true) → '(' ∉ s := by
      intro s hs hmem
      exact absurd (hs _ hmem) (by decide)
    have hquote : ∀ q, IsQuote q → '(' ≠ q := by
      rintro q (rfl | rfl) <;> decide
    have hchars : '(' ∉ id := fun hmem => absurd (hid _ hmem) (by decide)
    simp only [List.mem_append, List.mem_cons, not_or]
    exact ⟨hblank s₂ hs₂, hquote q hq, hchars, hquote q' hq', hblank s₃ hs₃⟩

theorem not_mem_word {c : Char} {s : List Char} (hc : c ∉ requireWord)
    (hblank : Text.isBlank c = false) (hs : ∀ c ∈ s, Text.isBlank c = true) :
    c ∉ requireWord ++ s := by
  intro hmem
  rcases List.mem_append.mp hmem with hmem | hmem
  · exact hc hmem
  · rw [hs c hmem] at hblank
    cases hblank

/-- No call begins inside the word or its blanks: the parenthesis would be the same one, and the
word of the second call would end in the blanks of the first. -/
theorem word_once {s s' : List Char} (hs : ∀ c ∈ s, Text.isBlank c = true) (ha : a ≠ []) :
    requireWord ++ s ≠ a ++ (requireWord ++ s') := by
  intro h
  rw [← List.append_assoc, List.append_eq_append_iff] at h
  rcases h with ⟨more, hmore, rfl⟩ | ⟨more, hmore, -⟩
  · have hne : more ≠ [] := by
      rintro rfl
      have hlength := congrArg List.length hmore
      rw [List.length_append, List.append_nil] at hlength
      exact ha (List.length_eq_zero_iff.mp (by omega))
    have hlast := congrArg List.getLast? hmore
    rw [List.getLast?_append_of_ne_nil _ (by decide), List.getLast?_append_of_ne_nil _ hne] at hlast
    have he : 'e' ∈ more := List.mem_of_getLast? hlast.symm
    exact absurd (hs 'e' (List.mem_append_left _ he)) (by decide)
  · have hlength := congrArg List.length hmore
    rw [List.length_append, List.length_append] at hlength
    exact ha (List.length_eq_zero_iff.mp (by omega))

/-- What stands before the first parenthesis is determined. -/
theorem before_paren {x y u v : List Char} (hx : '(' ∉ x) (hu : '(' ∉ u)
    (h : x ++ '(' :: y = u ++ '(' :: v) : x = u := by
  rcases List.append_eq_append_iff.mp h with ⟨more, rfl, hmore⟩ | ⟨more, rfl, hmore⟩
  · cases more with
    | nil => simp
    | cons c more =>
      obtain ⟨rfl, -⟩ := List.cons.inj hmore
      simp at hu
  · cases more with
    | nil => simp
    | cons c more =>
      obtain ⟨rfl, -⟩ := List.cons.inj hmore
      simp at hx

/-- No call begins with a closing parenthesis before its opening one. -/
theorem closing_later (h' : IsCall id' call') (hopen : '(' ∉ b) (hclose : ')' ∈ b) :
    b ++ rest ≠ call' ++ rest' := by
  intro heq
  obtain ⟨s, tail, hs, rfl, -⟩ := h'.opening
  have hword : ')' ∉ requireWord ++ s := not_mem_word (by decide) (by decide) hs
  rw [List.append_assoc _ _ rest', List.cons_append] at heq
  rcases List.append_eq_append_iff.mp heq with ⟨more, hmore, -⟩ | ⟨more, rfl, hmore⟩
  · exact hword (hmore ▸ List.mem_append_left more hclose)
  · cases more with
    | nil => exact hword (by simpa using hclose)
    | cons c more =>
      obtain ⟨rfl, -⟩ := List.cons.inj hmore
      simp at hopen

/-- Inside a call no other call begins. -/
theorem alone (h : IsCall id (a ++ b)) (ha : a ≠ []) (hb : b ≠ []) (h' : IsCall id' call') :
    b ++ rest ≠ call' ++ rest' := by
  obtain ⟨s, tail, hs, hcall, htail⟩ := h.opening
  rcases List.append_eq_append_iff.mp hcall with ⟨front, hfront, rfl⟩ | ⟨back, rfl, hback⟩
  · intro heq
    obtain ⟨s', tail', hs', rfl, -⟩ := h'.opening
    have hword : '(' ∉ requireWord ++ s := not_mem_word (by decide) (by decide) hs
    have hword' : '(' ∉ requireWord ++ s' := not_mem_word (by decide) (by decide) hs'
    have hfree : '(' ∉ front := fun hmem => hword (hfront ▸ List.mem_append_right a hmem)
    rw [List.append_assoc, List.cons_append, List.append_assoc _ _ rest', List.cons_append] at heq
    rw [before_paren hfree hword' heq] at hfront
    exact word_once hs ha hfront
  · cases back with
    | nil =>
      intro heq
      obtain ⟨s', tail', -, rfl, -⟩ := h'.opening
      rw [List.nil_append] at hback
      rw [← hback] at heq
      cases heq
    | cons c back =>
      have hback : tail ++ [')'] = back ++ b := (List.cons.inj hback).2
      apply h'.closing_later
      · intro hmem
        have hmem : '(' ∈ tail ++ [')'] := hback ▸ List.mem_append_right back hmem
        simp [htail] at hmem
      · have hlast := congrArg List.getLast? hback
        rw [List.getLast?_append_of_ne_nil _ hb, List.getLast?_concat] at hlast
        exact List.mem_of_getLast? hlast.symm

end IsCall

/-! ### All calls are found -/

namespace CallAt

variable {text call rest id id' : List Char} {i : Nat}

theorem zero_iff : CallAt text 0 id ↔ ∃ rest, requireCall? text = some (id, rest) := by
  simp only [CallAt, List.drop_zero, requireCall?_eq_some_iff]
  constructor
  · rintro ⟨call, rest, h⟩
    exact ⟨rest, call, h⟩
  · rintro ⟨rest, call, h⟩
    exact ⟨call, rest, h⟩

/-- At one place there is one identifier. -/
theorem id_eq (h : CallAt text i id) (h' : CallAt text i id') : id = id' := by
  obtain ⟨rest, hrest⟩ := zero_iff.mp (show CallAt (text.drop i) 0 id from h)
  obtain ⟨rest', hrest'⟩ := zero_iff.mp (show CallAt (text.drop i) 0 id' from h')
  exact (Prod.mk.inj (Option.some.inj (hrest.symm.trans hrest'))).1

theorem append_iff : CallAt (call ++ rest) (call.length + i) id ↔ CallAt rest i id := by
  rw [CallAt, CallAt, List.drop_length_add_append]

/-- A call behind the beginning of another one is behind the whole of it. -/
theorem length_le (h : IsCall id' call) (hcall : CallAt (call ++ rest) i id) (hi : i ≠ 0) :
    call.length ≤ i := by
  by_contra hlt
  obtain ⟨call', rest', hcall', heq⟩ := hcall
  rw [List.drop_append_of_le_length (by omega)] at heq
  rw [← List.take_append_drop i call] at h
  have hfront : call.take i ≠ [] := by
    rw [Ne, List.take_eq_nil_iff, not_or]
    refine ⟨hi, ?_⟩
    rintro rfl
    exact hlt (Nat.zero_le i)
  have hback : call.drop i ≠ [] := by
    rw [Ne, List.drop_eq_nil_iff]
    exact hlt
  exact h.alone hfront hback hcall' heq

end CallAt

/-- The places of all calls in the text, in order, and the identifiers that the scan gives. -/
structure Places (text : List Char) (places : List Nat) : Prop where
  increasing : places.Pairwise (· < ·)
  complete : ∀ i, i ∈ places ↔ ∃ id, CallAt text i id
  named : List.Forall₂ (CallAt text) places (findRequires text)

namespace Places

variable {front rest id : List Char} {places : List Nat}

theorem mem_shifted (h : Places rest places) (front : List Char) (i : Nat) :
    i ∈ places.map (front.length + ·) ↔
      front.length ≤ i ∧ ∃ id, CallAt (front ++ rest) i id := by
  rw [List.mem_map]
  constructor
  · rintro ⟨j, hj, rfl⟩
    obtain ⟨id, hid⟩ := (h.complete j).mp hj
    exact ⟨Nat.le_add_right .., id, CallAt.append_iff.mpr hid⟩
  · rintro ⟨hle, id, hid⟩
    obtain ⟨j, rfl⟩ := Nat.exists_eq_add_of_le hle
    exact ⟨j, (h.complete j).mpr ⟨id, CallAt.append_iff.mp hid⟩, rfl⟩

theorem increasing_shifted (h : Places rest places) (n : Nat) :
    (places.map (n + ·)).Pairwise (· < ·) := by
  rw [List.pairwise_map]
  exact h.increasing.imp fun hlt => Nat.add_lt_add_left hlt n

theorem named_shifted (h : Places rest places) (front : List Char) :
    List.Forall₂ (CallAt (front ++ rest)) (places.map (front.length + ·)) (findRequires rest) := by
  rw [List.forall₂_map_left_iff]
  exact h.named.imp fun i id hid => CallAt.append_iff.mpr hid

/-- A call in front comes before all others. -/
theorem cons_call (hcall : IsCall id front) (h : Places rest places)
    (hscan : findRequires (front ++ rest) = id :: findRequires rest) :
    Places (front ++ rest) (0 :: places.map (front.length + ·)) := by
  have hfirst : CallAt (front ++ rest) 0 id := ⟨front, rest, hcall, rfl⟩
  constructor
  case increasing =>
    refine List.pairwise_cons.mpr ⟨?_, h.increasing_shifted _⟩
    intro i hi
    have hlength := List.length_pos_iff.mpr hcall.ne_nil
    exact Nat.lt_of_lt_of_le hlength ((h.mem_shifted front i).mp hi).1
  case complete =>
    intro i
    rw [List.mem_cons, h.mem_shifted]
    constructor
    · rintro (rfl | ⟨-, hid⟩)
      · exact ⟨id, hfirst⟩
      · exact hid
    · rintro ⟨id', hid'⟩
      by_cases hi : i = 0
      · exact .inl hi
      · exact .inr ⟨CallAt.length_le hcall hid' hi, id', hid'⟩
  case named =>
    rw [hscan]
    exact .cons hfirst (h.named_shifted front)

/-- Where no call begins, the scan goes on. -/
theorem cons_char {c : Char} (hnone : requireCall? (c :: rest) = none) (h : Places rest places)
    (hscan : findRequires (c :: rest) = findRequires rest) :
    Places (c :: rest) (places.map (1 + ·)) := by
  constructor
  case increasing => exact h.increasing_shifted 1
  case complete =>
    intro i
    refine (h.mem_shifted [c] i).trans ⟨And.right, fun hid => ⟨?_, hid⟩⟩
    obtain ⟨id, hid⟩ := hid
    rw [List.length_singleton, Nat.one_le_iff_ne_zero]
    rintro rfl
    obtain ⟨rest', hsome⟩ := CallAt.zero_iff.mp hid
    exact Option.some_ne_none _ (hsome.symm.trans hnone)
  case named =>
    rw [hscan]
    exact h.named_shifted [c]

end Places

theorem exists_places (text : List Char) : ∃ places, Places text places := by
  induction text using findRequires.induct with
  | case1 =>
    refine ⟨[], .nil, fun i => ⟨nofun, ?_⟩, ?_⟩
    · rintro ⟨id, call, rest, hcall, heq⟩
      rw [List.drop_nil] at heq
      exact absurd (List.append_eq_nil_iff.mp heq.symm).1 hcall.ne_nil
    · rw [findRequires]
      exact .nil
  | case2 c r id rest hread ih =>
    obtain ⟨places, hplaces⟩ := ih
    obtain ⟨call, hcall, heq⟩ := requireCall?_eq_some_iff.mp hread
    have hscan : findRequires (c :: r) = id :: findRequires rest := by
      rw [findRequires, hread]
    rw [heq] at hscan ⊢
    exact ⟨_, hplaces.cons_call hcall hscan⟩
  | case3 c r hread ih =>
    obtain ⟨places, hplaces⟩ := ih
    have hscan : findRequires (c :: r) = findRequires r := by
      rw [findRequires, hread]
    exact ⟨_, hplaces.cons_char hread hscan⟩

/-- An identifier is found exactly if some call in the text has it. -/
theorem mem_findRequires_iff {text id : List Char} :
    id ∈ findRequires text ↔ ∃ i, CallAt text i id := by
  obtain ⟨places, hplaces⟩ := exists_places text
  obtain ⟨hlength, hnamed⟩ := List.forall₂_iff_get.mp hplaces.named
  constructor
  · intro hid
    obtain ⟨n, hn, rfl⟩ := List.getElem_of_mem hid
    exact ⟨places[n], hnamed n (hlength ▸ hn) hn⟩
  · rintro ⟨i, hi⟩
    obtain ⟨n, hn, rfl⟩ := List.getElem_of_mem ((hplaces.complete i).mpr ⟨id, hi⟩)
    rw [hi.id_eq (hnamed n hn (hlength ▸ hn))]
    exact List.get_mem ..

theorem isIdChar_of_mem_findRequires {text id : List Char} (h : id ∈ findRequires text) :
    ∀ c ∈ id, isIdChar c = true := by
  obtain ⟨i, call, rest, hcall, -⟩ := mem_findRequires_iff.mp h
  cases hcall with
  | call _ _ _ _ chars _ _ => exact chars

/-! ### Calls that are read as tokens -/

theorem isBlank_text {c : Char} (h : isBlank c = true) : Text.isBlank c = true := by
  rcases eq_of_isBlank h with rfl | rfl | rfl | rfl | rfl | rfl <;> decide

/-- Four tokens that read a call of `require` with a short string. -/
inductive IsCallRun : List Char → List Lexeme → Prop
  | run {id : List Char} {q : Char} {o₁ o₂ o₃ o₄ : Nat} (quote : IsQuote q) (nonempty : id ≠ [])
      (chars : ∀ c ∈ id, isIdChar c = true) :
      IsCallRun id [⟨.name requireWord, o₁⟩, ⟨.symbol .parenOpen, o₂⟩,
        ⟨.string (q :: (id ++ [q])), o₃⟩, ⟨.symbol .parenClose, o₄⟩]

namespace Tiling

variable {offset : Nat} {input : List Char} {x : Lexeme} {before found : List Lexeme}

/-- Blanks, the first token, and the rest. -/
theorem uncons (h : Tiling offset input (x :: found)) : ∃ s rest,
    (∀ c ∈ s, Text.isBlank c = true) ∧ input = s ++ (x.token.text ++ rest) ∧
      x.offset = offset + utf8Size s ∧ Tiling x.stop rest found := by
  generalize hlist : x :: found = list at h
  induction h with
  | nil => cases hlist
  | @blank offset c r found' hc h ih =>
    obtain ⟨s, rest, hs, rfl, hoffset, htail⟩ := ih hlist
    refine ⟨c :: s, rest, List.forall_mem_cons.mpr ⟨isBlank_text hc, hs⟩, rfl, ?_, htail⟩
    rw [hoffset, utf8Size_cons, utf8Size_of_isBlank hc, Nat.add_assoc]
  | @token offset t rest found' ht h ih =>
    obtain ⟨rfl, rfl⟩ := List.cons.inj hlist
    exact ⟨[], rest, nofun, rfl, rfl, h⟩

theorem unappend (h : Tiling offset input (before ++ found)) : ∃ front rest,
    input = front ++ rest ∧ Tiling (offset + utf8Size front) rest found := by
  induction before generalizing offset input with
  | nil => exact ⟨[], input, rfl, h⟩
  | cons x before ih =>
    obtain ⟨s, rest, -, rfl, hoffset, htail⟩ := h.uncons
    obtain ⟨front, rest, rfl, hrest⟩ := ih htail
    refine ⟨s ++ (x.token.text ++ front), rest, by simp, ?_⟩
    rw [utf8Size_append, utf8Size_append, ← Nat.add_assoc, ← hoffset, ← Nat.add_assoc]
    exact hrest

/-- Tokens in a row that read a call make up a call, with the blanks between them. -/
theorem call_of_run {run after : List Lexeme} {id : List Char}
    (h : Tiling offset input (run ++ after)) (hrun : IsCallRun id run) :
    ∃ s call rest, input = s ++ (call ++ rest) ∧ IsCall id call ∧
      ∀ x ∈ run.head?, x.offset = offset + utf8Size s := by
  cases hrun with
  | @run q o₁ o₂ o₃ o₄ hq hne hid =>
    obtain ⟨s, _, -, rfl, hoffset, h⟩ := h.uncons
    obtain ⟨s₁, _, hs₁, rfl, -, h⟩ := h.uncons
    obtain ⟨s₂, _, hs₂, rfl, -, h⟩ := h.uncons
    obtain ⟨s₃, rest, hs₃, rfl, -, -⟩ := h.uncons
    refine ⟨s, _, rest, ?_, .call hs₁ hs₂ hq hne hid hq hs₃, ?_⟩
    · simp [Token.text, Symbol.text]
    · intro x hx
      obtain rfl := Option.mem_some.mp hx
      exact hoffset

end Tiling

/-- The scan gives the identifiers of all calls in the text and nothing else, in the order of their
places; a call is found whatever stands around it, and so is one that is read as four tokens. -/
theorem findRequires_exact (text : List Char) :
    (∃ places, Places text places) ∧
    (∀ a call b id, IsCall id call → id ∈ findRequires (a ++ call ++ b)) ∧
    ∀ before run after id, tokenize text = .ok (before ++ run ++ after) → IsCallRun id run →
      ∃ i, CallAt text i id ∧ (∀ x ∈ run.head?, utf8Size (text.take i) = x.offset) ∧
        id ∈ findRequires text := by
  refine ⟨exists_places text, ?_, ?_⟩
  · intro a call b id hcall
    refine mem_findRequires_iff.mpr ⟨a.length, call, b, hcall, ?_⟩
    rw [List.append_assoc, List.drop_left]
  · intro before run after id hfound hrun
    obtain ⟨line, input, rfl, htiling, -⟩ := tiling_of_tokenize hfound
    rw [List.append_assoc] at htiling
    obtain ⟨front, input, rfl, hbehind⟩ := htiling.unappend
    obtain ⟨s, call, rest, rfl, hcall, hoffset⟩ := hbehind.call_of_run hrun
    have hsplit : line ++ (front ++ (s ++ (call ++ rest))) =
        (line ++ front ++ s) ++ (call ++ rest) := by simp
    rw [hsplit]
    have hplace : CallAt ((line ++ front ++ s) ++ (call ++ rest)) (line ++ front ++ s).length id :=
      ⟨call, rest, hcall, List.drop_left⟩
    refine ⟨_, hplace, ?_, mem_findRequires_iff.mpr ⟨_, hplace⟩⟩
    intro x hx
    rw [List.take_left, utf8Size_append, utf8Size_append, hoffset x hx]

/-- A call with blanks between its tokens, behind a character that takes two bytes. -/
theorem spaced_call_found :
    tokenize "'é' require\t( 'a.b' )".toList = .ok ([⟨.string "'é'".toList, 0⟩] ++
        [⟨.name requireWord, 5⟩, ⟨.symbol .parenOpen, 13⟩, ⟨.string "'a.b'".toList, 15⟩,
          ⟨.symbol .parenClose, 21⟩] ++ []) ∧
      ['a', '.', 'b'] ∈ findRequires "'é' require\t( 'a.b' )".toList := by
  have hread : tokenize "'é' require\t( 'a.b' )".toList = .ok ([⟨.string "'é'".toList, 0⟩] ++
      [⟨.name requireWord, 5⟩, ⟨.symbol .parenOpen, 13⟩, ⟨.string "'a.b'".toList, 15⟩,
        ⟨.symbol .parenClose, 21⟩] ++ []) := by cbv
  have hrun : IsCallRun ['a', '.', 'b'] [⟨.name requireWord, 5⟩, ⟨.symbol .parenOpen, 13⟩,
      ⟨.string "'a.b'".toList, 15⟩, ⟨.symbol .parenClose, 21⟩] :=
    .run (q := '\'') (.inl rfl) (by decide) (List.all_eq_true.mp (by cbv))
  obtain ⟨i, -, -, hfound⟩ := (findRequires_exact _).2.2 _ _ _ _ hread hrun
  exact ⟨hread, hfound⟩

/-- A call inside a string that another call follows. -/
example : findRequires "f('require(\"a.b\")') require ( 'c' ) require(\"d')".toList =
    ["a.b".toList, ['c'], ['d']] := by cbv

end LuaBundle.Lua
