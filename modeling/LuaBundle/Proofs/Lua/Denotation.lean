import LuaBundle.Proofs.Lua.Quoted
import LuaBundle.Proofs.Lua.ShortStrings

/-!
# What short strings denote

`shortBytes?` reads the bytes that a short string stands for, escape by escape as the manual has
them. It reads every short string and nothing else. A quoted text is a short string for its own bytes.
-/
namespace LuaBundle.Lua

open Text (hexDigit?)

def utf8 (text : List Char) : List UInt8 := text.flatMap String.utf8EncodeChar

/-! ### Escapes -/

def letterCodes : List (Char × UInt8) :=
  [('a', 0x07), ('b', 0x08), ('f', 0x0C), ('n', 0x0A), ('r', 0x0D), ('t', 0x09), ('v', 0x0B),
    ('\\', 0x5C), ('"', 0x22), ('\'', 0x27)]

def isHexDigit (c : Char) : Bool := (hexDigit? c).isSome

/-- The last `n` bytes of a code in UTF-8, of six bits each. -/
def trailingBytes (code n : Nat) : List UInt8 :=
  (List.range n).reverse.map fun i => .ofNat (0x80 + code / 64 ^ i % 64)

/-- A code in UTF-8 as it was first laid out, for all codes of 31 bits. -/
def codeBytes (code : Nat) : List UInt8 :=
  if code < 0x80 then [.ofNat code]
  else if code < 0x800 then .ofNat (0xC0 + code / 64) :: trailingBytes code 1
  else if code < 0x10000 then .ofNat (0xE0 + code / 64 ^ 2) :: trailingBytes code 2
  else if code < 0x200000 then .ofNat (0xF0 + code / 64 ^ 3) :: trailingBytes code 3
  else if code < 0x4000000 then .ofNat (0xF8 + code / 64 ^ 4) :: trailingBytes code 4
  else .ofNat (0xFC + code / 64 ^ 5) :: trailingBytes code 5

def byteEscape? : List Char → Option (List UInt8 × List Char)
  | a :: b :: r =>
    match hexDigit? a, hexDigit? b with
    | some x, some y => some ([.ofNat (16 * x + y)], r)
    | _, _ => none
  | _ => none

def codeEscape? : List Char → Option (List UInt8 × List Char)
  | '\x7b' :: r =>
    let digits := r.takeWhile isHexDigit
    match r.dropWhile isHexDigit with
    | '\x7d' :: rest =>
      if digits ≠ [] ∧ hexValue digits < 2 ^ 31 then some (codeBytes (hexValue digits), rest)
      else none
    | _ => none
  | _ => none

/-- The digits at the front, but no more than `n` of them. -/
def digitRun : Nat → List Char → List Char × List Char
  | n + 1, c :: r => if c.isDigit then onto c (digitRun n r) else ([], c :: r)
  | _, r => ([], r)

def decimalEscape? (input : List Char) : Option (List UInt8 × List Char) :=
  let (digits, rest) := digitRun 3 input
  if decimalValue digits ≤ 255 then some ([.ofNat (decimalValue digits)], rest) else none

/-- The other character of a line break of two. -/
def pairedBreak (c : Char) : Char := if c = '\n' then '\r' else '\n'

/-- What is left of a line break behind its first character. -/
def lineRest (c : Char) (r : List Char) : List Char :=
  if r.head? = some (pairedBreak c) then r.tail else r

/-- The bytes of an escape behind its backslash, and what follows it. -/
def escape? : List Char → Option (List UInt8 × List Char)
  | [] => none
  | c :: r =>
    match letterCodes.lookup c with
    | some code => some ([code], r)
    | none =>
      if c = 'x' then byteEscape? r
      else if c = 'u' then codeEscape? r
      else if c = 'z' then some ([], r.dropWhile isBlank)
      else if c = '\n' ∨ c = '\r' then some ([0x0A], lineRest c r)
      else if c.isDigit then decimalEscape? (c :: r)
      else none

/-- Digits that end because there are enough of them, or because no further one follows. -/
structure DigitRun (n : Nat) (digits rest : List Char) : Prop where
  isDigit : ∀ e ∈ digits, e.isDigit = true
  length_le : digits.length ≤ n
  ended : digits.length = n ∨ ∀ e ∈ rest.head?, e.isDigit = false

theorem digitRun_spec (n : Nat) (input : List Char) :
    (digitRun n input).1 ++ (digitRun n input).2 = input ∧
      DigitRun n (digitRun n input).1 (digitRun n input).2 := by
  fun_induction digitRun n input with
  | case1 n c r hc ih =>
    obtain ⟨happend, hdigits, hlength, hended⟩ := ih
    refine ⟨by simp [happend], ?_, Nat.succ_le_succ hlength, hended.imp_left (congrArg (· + 1))⟩
    exact List.forall_mem_cons.mpr ⟨hc, hdigits⟩
  | case2 n c r hc => exact ⟨rfl, nofun, Nat.zero_le _, .inr (by simpa using hc)⟩
  | case3 n r hstop =>
    refine ⟨rfl, nofun, Nat.zero_le _, ?_⟩
    cases n with
    | zero => exact .inl rfl
    | succ n =>
      cases r with
      | nil => exact .inr nofun
      | cons c r => exact (hstop n c r rfl rfl).elim

theorem DigitRun.eq {n : Nat} {digits rest : List Char} (h : DigitRun n digits rest) :
    digitRun n (digits ++ rest) = (digits, rest) := by
  obtain ⟨hdigits, hlength, hended⟩ := h
  induction digits generalizing n with
  | nil =>
    cases n with
    | zero => rfl
    | succ n =>
      cases rest with
      | nil => rfl
      | cons c r =>
        have hc : c.isDigit = false := hended.elim nofun fun h => h c rfl
        simp [digitRun, hc]
  | cons c digits ih =>
    obtain ⟨hc, hdigits⟩ := List.forall_mem_cons.mp hdigits
    cases n with
    | zero => cases hlength
    | succ n =>
      rw [List.cons_append, digitRun, if_pos hc, ih hdigits (Nat.le_of_succ_le_succ hlength)
        (hended.imp_left Nat.succ.inj)]
      rfl

section Escapes

variable {input rest r x y : List Char} {bytes : List UInt8} {c : Char}

/-- The text is an escape in front of everything that begins as `rest` does. -/
def EscapeBefore (x rest : List Char) : Prop :=
  ∀ r, (∀ d ∈ r.head?, d ∈ rest.head?) → Escape x r

theorem escape_of_byteEscape? (h : byteEscape? input = some (bytes, rest)) :
    ∃ x, input = x ++ rest ∧ EscapeBefore ('\\' :: 'x' :: x) rest := by
  unfold byteEscape? at h
  split at h
  · rename_i a b r
    split at h
    · rename_i ha hb
      cases h
      exact ⟨[a, b], rfl, fun _ _ => .byte (by simp [ha]) (by simp [hb])⟩
    · cases h
  · cases h

theorem escape_of_codeEscape? (h : codeEscape? input = some (bytes, rest)) :
    ∃ x, input = x ++ rest ∧ EscapeBefore ('\\' :: 'u' :: x) rest := by
  unfold codeEscape? at h
  split at h
  · rename_i r
    simp only at h
    split at h
    · rename_i rest' hclose
      split at h
      · rename_i hvalue
        cases h
        have hdigits : ∀ e ∈ r.takeWhile isHexDigit, (hexDigit? e).isSome = true := fun e he =>
          List.all_eq_true.mp List.all_takeWhile e he
        refine ⟨'\x7b' :: (r.takeWhile isHexDigit ++ ['\x7d']), ?_, fun _ _ => ?_⟩
        · rw [List.cons_append, List.append_assoc, List.singleton_append, ← hclose,
            List.takeWhile_append_dropWhile]
        · exact .code hdigits hvalue.1 hvalue.2
      · cases h
    · cases h
  · cases h

theorem escape_of_decimalEscape? (hc : c.isDigit = true)
    (h : decimalEscape? (c :: r) = some (bytes, rest)) :
    ∃ x, c :: r = x ++ rest ∧ x ≠ [] ∧ EscapeBefore ('\\' :: x) rest := by
  obtain ⟨happend, hdigits, hlength, hended⟩ := digitRun_spec 3 (c :: r)
  obtain ⟨d, ds, hfirst⟩ : ∃ d ds, (digitRun 3 (c :: r)).1 = d :: ds :=
    ⟨c, (digitRun 2 r).1, by rw [digitRun, if_pos hc]; rfl⟩
  unfold decimalEscape? at h
  split at h
  rename_i digits rest' hrun
  rw [hrun] at happend hdigits hlength hended hfirst
  simp only at happend hdigits hlength hended hfirst
  subst hfirst
  split at h
  · rename_i hvalue
    cases h
    refine ⟨d :: ds, happend.symm, List.cons_ne_nil _ _, fun r hr => ?_⟩
    refine .decimal hdigits (Nat.le_of_succ_le_succ hlength) ?_ hvalue
    exact hended.imp Nat.succ.inj fun hstop e he => hstop e (hr e he)
  · cases h

/-- Every letter of the table is an escape. -/
theorem escape_of_lookup {code : UInt8} (h : letterCodes.lookup c = some code) (r : List Char) :
    Escape ['\\', c] r := by
  obtain ⟨front, back, htable, -⟩ := List.lookup_eq_some_iff.mp h
  have hmem : c ∈ letterCodes.map Prod.fst := by simp [htable]
  exact .letter hmem

theorem escape_of_lineRest (hc : c = '\n' ∨ c = '\r') :
    ∃ x, c :: r = x ++ lineRest c r ∧ x ≠ [] ∧ EscapeBefore ('\\' :: x) (lineRest c r) := by
  unfold lineRest
  by_cases hpair : r.head? = some (pairedBreak c)
  · obtain ⟨s, rfl⟩ := List.head?_eq_some_iff.mp hpair
    rw [if_pos hpair]
    refine ⟨[c, pairedBreak c], rfl, List.cons_ne_nil _ _, fun _ _ => .line ?_⟩
    rcases hc with rfl | rfl <;> decide
  · rw [if_neg hpair]
    refine ⟨[c], rfl, List.cons_ne_nil _ _, fun _ _ => .line ?_⟩
    rcases hc with rfl | rfl <;> decide

/-- What the decoder reads is an escape. -/
theorem escape_of_escape? (h : escape? input = some (bytes, rest)) :
    ∃ x, input = x ++ rest ∧ x ≠ [] ∧ EscapeBefore ('\\' :: x) rest := by
  cases input with
  | nil => cases h
  | cons c r =>
    simp only [escape?] at h
    split at h
    · rename_i code hlookup
      cases h
      exact ⟨[c], rfl, List.cons_ne_nil _ _, fun r _ => escape_of_lookup hlookup r⟩
    split at h
    · rename_i hx
      obtain ⟨x, rfl, hbefore⟩ := escape_of_byteEscape? h
      exact ⟨c :: x, rfl, List.cons_ne_nil _ _, hx ▸ hbefore⟩
    split at h
    · rename_i hu
      obtain ⟨x, rfl, hbefore⟩ := escape_of_codeEscape? h
      exact ⟨c :: x, rfl, List.cons_ne_nil _ _, hu ▸ hbefore⟩
    split at h
    · rename_i hz
      cases h
      refine ⟨c :: r.takeWhile isBlank, by simp, List.cons_ne_nil _ _, fun _ _ => hz ▸ .skip ?_⟩
      exact fun b hb => List.all_eq_true.mp List.all_takeWhile b hb
    split at h
    · rename_i hline
      cases h
      exact escape_of_lineRest hline
    split at h
    · rename_i hdigit
      exact escape_of_decimalEscape? hdigit h
    · cases h

theorem escape?_length (h : escape? input = some (bytes, rest)) : rest.length < input.length := by
  obtain ⟨x, rfl, hne, -⟩ := escape_of_escape? h
  have hpos := List.length_pos_iff.mpr hne
  rw [List.length_append]
  omega

theorem escape?_digit (hc : c.isDigit = true) : escape? (c :: r) = decimalEscape? (c :: r) := by
  have hne : ∀ {d : Char}, d.isDigit = false → c ≠ d := by
    rintro d hd rfl
    rw [hc] at hd
    cases hd
  have hlookup : letterCodes.lookup c = none := by
    rw [List.lookup_eq_none_iff]
    intro p hp
    have hall : ∀ p ∈ letterCodes, p.1.isDigit = false := by decide
    exact bne_iff_ne.mpr (hne (hall p hp))
  have hline : ¬ (c = '\n' ∨ c = '\r') := by
    rintro (rfl | rfl) <;> cases hc
  simp only [escape?, hlookup]
  rw [if_neg (hne rfl), if_neg (hne rfl), if_neg (hne rfl), if_neg hline, if_pos hc]

/-- What stands behind an escape for the decoder, where `r` stands behind it in its string: it goes
on neither with the digits of the escape nor with its line break. -/
structure Behind (r rest : List Char) : Prop where
  digit : (∀ e ∈ r.head?, e.isDigit = false) → ∀ e ∈ rest.head?, e.isDigit = false
  line : ∀ c, rest.head? ≠ some (pairedBreak c)

/-- The decoder reads every escape, and behind `\z` it leaves out all blanks. -/
theorem Escape.escape? (h : Escape x r) (hbehind : Behind r rest) :
    ∃ y bytes, x = '\\' :: y ∧ (Lua.escape? (y ++ rest) = some (bytes, rest) ∨
      Lua.escape? (y ++ rest) = some (bytes, rest.dropWhile isBlank)) := by
  cases h with
  | @letter c _ hc =>
    have hkey : c ∈ letterCodes.map Prod.fst := hc
    obtain ⟨p, hp, rfl⟩ := List.mem_map.mp hkey
    obtain ⟨code, hcode⟩ : ∃ code, letterCodes.lookup p.1 = some code :=
      Option.isSome_iff_exists.mp (List.lookup_isSome_iff.mpr ⟨p, hp, beq_self_eq_true _⟩)
    exact ⟨[p.1], [code], rfl, .inl (by simp [Lua.escape?, hcode])⟩
  | @byte a b _ ha hb =>
    obtain ⟨m, hm⟩ := Option.isSome_iff_exists.mp ha
    obtain ⟨n, hn⟩ := Option.isSome_iff_exists.mp hb
    have hread : byteEscape? (a :: b :: rest) = some ([.ofNat (16 * m + n)], rest) := by
      simp [byteEscape?, hm, hn]
    exact ⟨['x', a, b], _, rfl, .inl hread⟩
  | @decimal d ds _ hdigits hcount hall hvalue =>
    have hrun : DigitRun 3 (d :: ds) rest :=
      ⟨hdigits, Nat.succ_le_succ hcount, hall.imp (congrArg (· + 1)) hbehind.digit⟩
    refine ⟨d :: ds, [.ofNat (decimalValue (d :: ds))], rfl, .inl ?_⟩
    rw [List.cons_append, escape?_digit (hdigits d (List.mem_cons_self ..)), ← List.cons_append,
      decimalEscape?, hrun.eq]
    exact if_pos hvalue
  | @code ds _ hdigits hne hvalue =>
    have hclose : isHexDigit '\x7d' = false := by decide
    have htake : (ds ++ '\x7d' :: rest).takeWhile isHexDigit = ds := by
      rw [List.takeWhile_append_of_pos (p := isHexDigit) hdigits, List.takeWhile_cons_of_neg
        (by simp [hclose]), List.append_nil]
    have hdrop : (ds ++ '\x7d' :: rest).dropWhile isHexDigit = '\x7d' :: rest := by
      rw [List.dropWhile_append_of_pos (p := isHexDigit) hdigits, List.dropWhile_cons_of_neg
        (by simp [hclose])]
    have hread : codeEscape? ('\x7b' :: (ds ++ '\x7d' :: rest)) =
        some (codeBytes (hexValue ds), rest) := by
      simp only [codeEscape?, htake, hdrop]
      exact if_pos ⟨hne, hvalue⟩
    refine ⟨'u' :: '\x7b' :: (ds ++ ['\x7d']), codeBytes (hexValue ds), rfl, .inl ?_⟩
    rw [List.cons_append, List.cons_append, List.append_assoc]
    exact hread
  | @skip w _ hw =>
    refine ⟨'z' :: w, [], rfl, .inr ?_⟩
    rw [← List.dropWhile_append_of_pos (p := isBlank) hw]
    rfl
  | @line l _ hl =>
    have halone : ∀ c, lineRest c rest = rest := fun c => if_neg (hbehind.line c)
    simp only [List.mem_cons, List.not_mem_nil, or_false] at hl
    rcases hl with rfl | rfl | rfl | rfl
    · exact ⟨['\n'], [0x0A], rfl, .inl (congrArg (fun s => some (_, s)) (halone '\n'))⟩
    · exact ⟨['\r'], [0x0A], rfl, .inl (congrArg (fun s => some (_, s)) (halone '\r'))⟩
    · exact ⟨['\r', '\n'], [0x0A], rfl, .inl rfl⟩
    · exact ⟨['\n', '\r'], [0x0A], rfl, .inl rfl⟩

end Escapes

/-! ### Strings -/

/-- The bytes of the text up to the closing quote, which is the last character. -/
def bodyBytes? (quote : Char) : List Char → Option (List UInt8)
  | [] => none
  | c :: r =>
    if c = quote then if r = [] then some [] else none
    else if c = '\\' then
      match _h : escape? r with
      | some (bytes, rest) => (bodyBytes? quote rest).map (bytes ++ ·)
      | none => none
    else if c = '\n' ∨ c = '\r' then none
    else (bodyBytes? quote r).map (String.utf8EncodeChar c ++ ·)
termination_by input => input.length
decreasing_by
  · exact Nat.lt_succ_of_lt (escape?_length _h)
  · exact Nat.lt_succ_self _

/-- The bytes that a short string stands for. -/
def shortBytes? : List Char → Option (List UInt8)
  | [] => none
  | c :: r => if c = '"' ∨ c = '\'' then bodyBytes? c r else none

section Strings

variable {quote c : Char} {body input rest r : List Char} {bytes : List UInt8}

theorem bodyBytes?_escape (hquote : quote ≠ '\\') (h : escape? r = some (bytes, rest)) :
    bodyBytes? quote ('\\' :: r) = (bodyBytes? quote rest).map (bytes ++ ·) := by
  rw [bodyBytes?, if_neg hquote.symm, if_pos rfl]
  split
  · rename_i hread
    rw [h] at hread
    cases hread
    rfl
  · rename_i hread
    rw [h] at hread
    cases hread

theorem bodyBytes?_char (hquote : c ≠ quote) (hslash : c ≠ '\\') (hfeed : c ≠ '\n')
    (hreturn : c ≠ '\r') :
    bodyBytes? quote (c :: r) = (bodyBytes? quote r).map (String.utf8EncodeChar c ++ ·) := by
  rw [bodyBytes?, if_neg hquote, if_neg hslash, if_neg (not_or.mpr ⟨hfeed, hreturn⟩)]

theorem bodyBytes?_quote (quote : Char) : bodyBytes? quote [quote] = some [] := by
  rw [bodyBytes?, if_pos rfl, if_pos rfl]

/-- What is read up to a quote is the body of a string. -/
theorem stringBody_of_bodyBytes? (h : bodyBytes? quote input = some bytes) :
    ∃ body, input = body ++ [quote] ∧ StringBody quote body := by
  fun_induction bodyBytes? quote input generalizing bytes with
  | case1 => cases h
  | case2 => exact ⟨[], rfl, .nil⟩
  | case3 => cases h
  | case4 r escaped rest hescape _ ih =>
    obtain ⟨more, hmore, -⟩ := Option.map_eq_some_iff.mp h
    obtain ⟨body, rfl, hbody⟩ := ih hmore
    obtain ⟨x, rfl, -, hbefore⟩ := escape_of_escape? hescape
    refine ⟨'\\' :: x ++ body, by simp, .escape (hbefore body fun d hd => ?_) hbody⟩
    rw [List.head?_append, Option.mem_def.mp hd]
    rfl
  | case5 => cases h
  | case6 => cases h
  | case7 c r hquote hslash hline ih =>
    obtain ⟨more, hmore, -⟩ := Option.map_eq_some_iff.mp h
    obtain ⟨body, rfl, hbody⟩ := ih hmore
    obtain ⟨hfeed, hreturn⟩ := not_or.mp hline
    exact ⟨c :: body, rfl, .char hquote hslash hfeed hreturn hbody⟩

/-- In a string, an escape is followed by another part of it or by the closing quote. -/
theorem StringBody.behind (hquote : quote = '"' ∨ quote = '\'') (h : StringBody quote r) :
    Behind r (r ++ [quote]) := by
  constructor
  case digit =>
    intro hr e he
    cases r with
    | nil =>
      obtain rfl := Option.mem_some.mp he
      rcases hquote with rfl | rfl <;> rfl
    | cons c r => exact hr e he
  case line =>
    intro c hc
    have hline : pairedBreak c = '\n' ∨ pairedBreak c = '\r' := by
      unfold pairedBreak
      split <;> simp
    cases r with
    | nil =>
      obtain rfl := Option.some.inj hc
      rcases hquote with hquote | hquote <;> simp [hquote] at hline
    | cons d r => exact h.head?_ne hline hc

theorem StringBody.dropWhile (h : StringBody quote r) : StringBody quote (r.dropWhile isBlank) := by
  induction h with
  | nil => exact .nil
  | @char c r hquote hslash hfeed hreturn hr ih =>
    by_cases hc : isBlank c = true
    · rwa [List.dropWhile_cons_of_pos hc]
    · rw [List.dropWhile_cons_of_neg hc]
      exact .char hquote hslash hfeed hreturn hr
  | @escape x r hx hr ih =>
    have hslash : (x ++ r).dropWhile isBlank = x ++ r := by
      cases hx <;> rfl
    rw [hslash]
    exact .escape hx hr

/-- Every string body is read, up to its quote. -/
theorem StringBody.exists_bytes (hquote : quote = '"' ∨ quote = '\'') (h : StringBody quote body) :
    ∃ bytes, bodyBytes? quote (body ++ [quote]) = some bytes := by
  have hslash : quote ≠ '\\' := by rcases hquote with rfl | rfl <;> decide
  -- behind `\z` the decoder goes on at a later part of the body, so induction is on its length
  induction hlength : body.length using Nat.strongRecOn generalizing body with
  | ind n ih =>
    cases h with
    | nil => exact ⟨[], bodyBytes?_quote quote⟩
    | @char c r hne hc hfeed hreturn hr =>
      obtain ⟨bytes, hbytes⟩ := ih r.length (by simp [← hlength]) hr rfl
      refine ⟨String.utf8EncodeChar c ++ bytes, ?_⟩
      rw [List.cons_append, bodyBytes?_char hne hc hfeed hreturn, hbytes]
      rfl
    | @escape x r hx hr =>
      obtain ⟨y, escaped, rfl, hread⟩ := hx.escape? (hr.behind hquote)
      have hshorter : r.length < n := by
        rw [← hlength, List.length_append, List.length_cons]
        omega
      obtain ⟨rest, hrest, bytes, hbytes⟩ : ∃ rest,
          escape? (y ++ (r ++ [quote])) = some (escaped, rest) ∧
            ∃ bytes, bodyBytes? quote rest = some bytes := by
        rcases hread with hread | hread
        · exact ⟨_, hread, ih r.length hshorter hr rfl⟩
        · have hblank : isBlank quote = false := by rcases hquote with rfl | rfl <;> rfl
          have hdrop : (r ++ [quote]).dropWhile isBlank = r.dropWhile isBlank ++ [quote] :=
            (run_append (fun d hd => Option.mem_some.mp hd ▸ hblank) r).2
          have hle := Nat.lt_of_le_of_lt (List.length_dropWhile_le isBlank r) hshorter
          exact ⟨_, hread, hdrop ▸ ih _ hle hr.dropWhile rfl⟩
      refine ⟨escaped ++ bytes, ?_⟩
      rw [List.append_assoc, List.cons_append, bodyBytes?_escape hslash hrest, hbytes]
      rfl

/-- The short strings are the texts that denote bytes. -/
theorem isSome_shortBytes?_iff {text : List Char} :
    (shortBytes? text).isSome = true ↔ IsShortString text := by
  constructor
  · intro h
    obtain ⟨bytes, hbytes⟩ := Option.isSome_iff_exists.mp h
    cases text with
    | nil => cases hbytes
    | cons quote r =>
      obtain ⟨hquote, hread⟩ := Option.ite_none_right_eq_some.mp hbytes
      obtain ⟨body, rfl, hbody⟩ := stringBody_of_bodyBytes? hread
      exact ⟨quote, body, hquote, hbody, rfl⟩
  · rintro ⟨quote, body, hquote, hbody, rfl⟩
    obtain ⟨bytes, hbytes⟩ := hbody.exists_bytes hquote
    rw [shortBytes?, if_pos hquote, hbytes]
    rfl

example : shortBytes? "'A\\x42\\u\x7b20AC\x7d\\67D'".toList =
    some [0x41, 0x42, 0xE2, 0x82, 0xAC, 0x43, 0x44] := by cbv

end Strings

/-! ### Quoted texts -/

theorem bodyBytes?_escapeChar (c : Char) (rest : List Char) :
    bodyBytes? '"' (escapeChar c ++ rest) =
      (bodyBytes? '"' rest).map (String.utf8EncodeChar c ++ ·) := by
  unfold escapeChar
  split
  · exact bodyBytes?_escape (by decide) rfl
  · exact bodyBytes?_escape (by decide) rfl
  · exact bodyBytes?_escape (by decide) rfl
  · exact bodyBytes?_escape (by decide) rfl
  · rename_i hquote hslash hfeed hreturn
    exact bodyBytes?_char hquote hslash hfeed hreturn

theorem shortBytes?_quoted (text : List Char) : shortBytes? (quoted text) = some (utf8 text) := by
  have hbody : bodyBytes? '"' (text.flatMap escapeChar ++ ['"']) = some (utf8 text) := by
    induction text with
    | nil => exact bodyBytes?_quote '"'
    | cons c text ih =>
      rw [List.flatMap_cons, List.append_assoc, bodyBytes?_escapeChar, ih]
      rfl
  exact hbody

theorem utf8_injective : Function.Injective utf8 := by
  intro v w h
  have hbytes : (String.ofList v).toByteArray = (String.ofList w).toByteArray :=
    congrArg List.toByteArray h
  exact String.ofList_injective (String.toByteArray_inj.mp hbytes)

theorem quoted_inj {v w : List Char} : quoted v = quoted w ↔ v = w := by
  constructor
  · intro h
    have hbytes := shortBytes?_quoted v
    rw [h, shortBytes?_quoted] at hbytes
    exact utf8_injective (Option.some.inj hbytes).symm
  · rintro rfl
    rfl

theorem not_mem_quoted {c : Char} (hc : c = '\n' ∨ c = '\r') (text : List Char) :
    c ∉ quoted text := by
  have hescaped : ∀ d, c ∉ escapeChar d := by
    intro d
    unfold escapeChar
    split <;> rcases hc with rfl | rfl <;> simp_all [eq_comm]
  rw [quoted, List.mem_append, List.mem_cons, List.mem_flatMap, List.mem_singleton]
  rintro ((rfl | ⟨d, -, hd⟩) | rfl)
  · simp at hc
  · exact hescaped d hd
  · simp at hc

/-- The literal is read first, and the lexer goes on behind it with what follows. -/
theorem tokenize_quoted_append (text rest : List Char) :
    tokenize (quoted text ++ rest) =
      (scan (utf8Size (quoted text)) 1 rest).map (⟨.string (quoted text), 0⟩ :: ·) := by
  have hhash : (quoted text ++ rest).head? ≠ some '#' := by simp [quoted]
  have hlines : (Token.string (quoted text)).text.count '\n' = 0 :=
    List.count_eq_zero.mpr (not_mem_quoted (.inl rfl) text)
  have hscan : scan 0 1 (quoted text ++ rest) = _ := scan_token rfl (nextToken_quoted text rest)
  rw [hlines, Nat.zero_add, Nat.add_zero] at hscan
  rw [tokenize, if_neg hhash]
  exact hscan

/-- A quoted text is one string without line breaks that denotes the text, whatever follows it; so
different texts have different literals. -/
theorem quoted_faithful (text : List Char) :
    tokenize (quoted text) = .ok [⟨.string (quoted text), 0⟩] ∧ IsShortString (quoted text) ∧
      '\n' ∉ quoted text ∧ '\r' ∉ quoted text ∧ shortBytes? (quoted text) = some (utf8 text) ∧
      (∀ rest, tokenize (quoted text ++ rest) =
        (scan (utf8Size (quoted text)) 1 rest).map (⟨.string (quoted text), 0⟩ :: ·)) ∧
      ∀ other, quoted text = quoted other ↔ text = other := by
  have hdenotes := shortBytes?_quoted text
  refine ⟨?_, ?_, not_mem_quoted (.inl rfl) text, not_mem_quoted (.inr rfl) text, hdenotes,
    tokenize_quoted_append text, fun other => quoted_inj⟩
  · have halone := tokenize_quoted_append text []
    rwa [List.append_nil, scan] at halone
  · exact isSome_shortBytes?_iff.mp (by rw [hdenotes]; rfl)

end LuaBundle.Lua
