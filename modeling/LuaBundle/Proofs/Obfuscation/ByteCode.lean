import LuaBundle.Obfuscation.ByteCode
import LuaBundle.Proofs.Lua.Denotation
import Mathlib.Algebra.Order.Floor.Div

/-!
# Byte codes are read back

A reader of the first statement, call by call, finds the bytes of the source in the tokens of its
encoding. Text and reader have the same layers (the codes of a call, a call, the calls of a table,
the expression, the statement), and each layer is read back in front of whatever is read behind it.
-/
namespace LuaBundle.Obfuscation

open Lua

/-! ### Blocks -/

section Blocks

variable {α : Type}

theorem flatten_blocks (size : Nat) (xs : List α) : (blocks size xs).flatten = xs := by
  fun_induction blocks size xs with
  | case1 => rfl
  | case2 x xs ih => rw [List.flatten_cons, ih, List.cons_append, List.take_append_drop]

theorem length_blocks (size : Nat) (xs : List α) :
    (blocks size xs).length = xs.length ⌈/⌉ (size + 1) := by
  fun_induction blocks size xs with
  | case1 => exact (zero_ceilDiv (size + 1)).symm
  | case2 x xs ih =>
    rw [List.length_cons, ih, List.length_drop, List.length_cons, Nat.ceilDiv_eq_add_pred_div,
      Nat.ceilDiv_eq_add_pred_div, Nat.add_succ_sub_one, Nat.add_succ_sub_one,
      Nat.add_right_comm, Nat.add_assoc xs.length, Nat.add_div_right _ (Nat.succ_pos size)]
    by_cases hlast : xs.length ≤ size
    · rw [Nat.sub_eq_zero_of_le hlast, Nat.zero_add, Nat.div_eq_of_lt (Nat.lt_succ_self size),
        Nat.div_eq_of_lt (Nat.lt_succ_of_le hlast)]
    · rw [Nat.sub_add_cancel (Nat.le_of_not_le hlast)]

theorem length_of_mem_blocks {size : Nat} {xs block : List α} (h : block ∈ blocks size xs) :
    1 ≤ block.length ∧ block.length ≤ size + 1 := by
  fun_induction blocks size xs with
  | case1 => cases h
  | case2 x xs ih =>
    rcases List.mem_cons.mp h with rfl | h
    · simp
    · exact ih h

end Blocks

/-! ### The reader -/

/-- The value of a numeral that has decimal digits only. -/
def decimal? (numeral : List Char) : Option Nat :=
  if numeral ≠ [] ∧ numeral.all Char.isDigit then some (decimalValue numeral) else none

/-- Numerals with commas between them, up to a closing parenthesis. -/
def codes? : List Token → Option (List Nat × List Token)
  | .number numeral :: .symbol .parenClose :: rest =>
    (decimal? numeral).map fun code => ([code], rest)
  | .number numeral :: .symbol .comma :: rest => do
    let code ← decimal? numeral
    let (codes, rest) ← codes? rest
    return (code :: codes, rest)
  | _ => none

/-- The arguments of a call, behind its opening parenthesis. -/
def arguments? : List Token → Option (List Nat × List Token)
  | .symbol .parenClose :: rest => some ([], rest)
  | tokens => codes? tokens

/-- Stands for `string.char(`. -/
def charHead : List Token :=
  [.name "string".toList, .symbol .dot, .name "char".toList, .symbol .parenOpen]

/-- Stands for `table.concat({`. -/
def concatHead : List Token :=
  [.name "table".toList, .symbol .dot, .name "concat".toList, .symbol .parenOpen,
    .symbol .braceOpen]

def charCall? (tokens : List Token) : Option (List Nat × List Token) :=
  (tokens.dropPrefix? charHead).bind arguments?

theorem codes?_length {tokens rest : List Token} {codes : List Nat}
    (h : codes? tokens = some (codes, rest)) : rest.length < tokens.length := by
  fun_induction codes? tokens generalizing codes with
  | case1 numeral rest' =>
    obtain ⟨code, -, hsplit⟩ := Option.map_eq_some_iff.mp h
    cases hsplit
    simp
  | case2 numeral rest' ih =>
    obtain ⟨code, -, h⟩ := Option.bind_eq_some_iff.mp h
    obtain ⟨⟨codes', rest''⟩, hcodes, hsplit⟩ := Option.bind_eq_some_iff.mp h
    cases hsplit
    have hlt := ih hcodes
    simp only [List.length_cons]
    omega
  | case3 => cases h

theorem arguments?_length {tokens rest : List Token} {codes : List Nat}
    (h : arguments? tokens = some (codes, rest)) : rest.length < tokens.length := by
  unfold arguments? at h
  split at h
  · cases h
    simp
  · exact codes?_length h

theorem charCall?_length {tokens rest : List Token} {codes : List Nat}
    (h : charCall? tokens = some (codes, rest)) : rest.length < tokens.length := by
  obtain ⟨behind, hhead, harguments⟩ := Option.bind_eq_some_iff.mp h
  obtain ⟨front, rfl, -⟩ := List.dropPrefix?_eq_some_iff.mp hhead
  have hlt := arguments?_length harguments
  rw [List.length_append]
  omega

/-- Calls with commas between them, up to the brace that closes a table. -/
def charCalls? (tokens : List Token) : Option (List (List Nat) × List Token) :=
  match _h : charCall? tokens with
  | some (codes, .symbol .braceClose :: rest) => some ([codes], rest)
  | some (codes, .symbol .comma :: rest) =>
    (charCalls? rest).map fun (calls, rest) => (codes :: calls, rest)
  | _ => none
termination_by tokens.length
decreasing_by
  have hlt := charCall?_length _h
  rw [List.length_cons] at hlt
  omega

/-- A table of calls, behind its opening brace, as the last argument of a call. -/
def tableArgument? (tokens : List Token) : Option (List (List Nat) × List Token) :=
  match charCalls? tokens with
  | some (calls, .symbol .parenClose :: rest) => some (calls, rest)
  | _ => none

def concatCall? (tokens : List Token) : Option (List (List Nat) × List Token) :=
  (tokens.dropPrefix? concatHead).bind tableArgument?

/-- An expression that puts a text together from calls of `string.char`: the empty string, a call,
or the concatenation of a table of them. -/
def expression? : List Token → Option (List (List Nat) × List Token)
  | .string literal :: rest => if shortBytes? literal = some [] then some ([], rest) else none
  | tokens => ((charCall? tokens).map fun (codes, rest) => ([codes], rest)) <|> concatCall? tokens

/-- The statement `local name = expression` at the front. -/
def declaration? : List Token → Option ((List Char × List (List Nat)) × List Token)
  | .keyword .localKw :: .name name :: .symbol .assign :: rest =>
    (expression? rest).map fun (calls, rest) => ((name, calls), rest)
  | _ => none

/-- Stands for `local __lp_chunk = assert(load(name, literal)) return __lp_chunk(...)`. -/
def loadTokens (name literal : List Char) : List Token :=
  [.keyword .localKw, .name "__lp_chunk".toList, .symbol .assign, .name "assert".toList,
    .symbol .parenOpen, .name "load".toList, .symbol .parenOpen, .name name, .symbol .comma,
    .string literal, .symbol .parenClose, .symbol .parenClose, .keyword .returnKw,
    .name "__lp_chunk".toList, .symbol .parenOpen, .symbol .ellipsis, .symbol .parenClose]

/-! ### Numerals -/

theorem all_isDigit_toDigits (n : Nat) : (Nat.toDigits 10 n).all Char.isDigit = true :=
  List.all_eq_true.mpr fun _ => Nat.isDigit_of_mem_toDigits (by decide) (by decide)

theorem decimal?_toDigits (n : Nat) : decimal? (Nat.toDigits 10 n) = some n := by
  rw [decimal?, if_pos ⟨Nat.toDigits_ne_nil, all_isDigit_toDigits n⟩]
  exact congrArg some Nat.ofDigitChars_ten_toDigits

theorem numeralRun_of_isDigit {digits : List Char} (h : ∀ d ∈ digits, d.isDigit = true) :
    numeralRun isDecimalExponent digits = (digits, []) := by
  have hplain : ∀ d ∈ digits, isWordChar d = true ∧ isDecimalExponent d = false ∧ d ≠ '.' := by
    intro d hd
    have hdigit := h d hd
    refine ⟨isWordChar_of_isDigit hdigit, ?_, ?_⟩
    · by_contra hexp
      simp only [Bool.not_eq_false, isDecimalExponent, Bool.or_eq_true, beq_iff_eq] at hexp
      rcases hexp with rfl | rfl <;> cases hdigit
    · rintro rfl
      cases hdigit
  clear h
  induction digits with
  | nil => rfl
  | cons c digits ih =>
    obtain ⟨⟨hword, hexp, hdot⟩, hdigits⟩ := List.forall_mem_cons.mp hplain
    cases digits with
    | nil => simp [numeralRun, hword]
    | cons d digits => simp [numeralRun, hword, hexp, hdot, ih hdigits, onto]

/-- A number is one token in front of a comma or a parenthesis. -/
theorem scans_toDigits {c : Char} {rest : List Char} {tokens : List Token} (n : Nat)
    (hc : c = ',' ∨ c = ')') (h : Scans (c :: rest) tokens) :
    Scans (Nat.toDigits 10 n ++ c :: rest) (.number (Nat.toDigits 10 n) :: tokens) := by
  have hlexed : (Token.number (Nat.toDigits 10 n)).Lexed := by
    have hall := List.all_eq_true.mp (all_isDigit_toDigits n)
    obtain ⟨d, r, hdigits⟩ := List.exists_cons_of_ne_nil (Nat.toDigits_ne_nil (n := n) (b := 10))
    rw [hdigits] at hall ⊢
    obtain ⟨hd, hr⟩ := List.forall_mem_cons.mp hall
    have hrest : numeralRest d r = (r, []) := by
      cases r with
      | nil => rfl
      | cons e r =>
        have hx : ¬ (d = '0' ∧ (e = 'x' ∨ e = 'X')) := by
          have he := (List.forall_mem_cons.mp hr).1
          rintro ⟨-, rfl | rfl⟩ <;> cases he
        rw [numeralRest, if_neg hx, numeralRun_of_isDigit hr]
    exact ⟨d, r, [], by rw [nextToken_numeral (.inl hd), hrest]⟩
  have hstops : (Token.number (Nat.toDigits 10 n)).Stops (c :: rest) := by
    intro d hd
    obtain rfl := Option.mem_some.mp hd
    rcases hc with rfl | rfl <;> simp [isWordChar]
  exact Scans.text_append hlexed hstops h

/-! ### What is written is read -/

theorem joined_singleton (separator part : List Char) : joined separator [part] = part :=
  List.intercalate_singleton

theorem joined_cons_cons (separator part next : List Char) (parts : List (List Char)) :
    joined separator (part :: next :: parts) =
      part ++ (separator ++ joined separator (next :: parts)) := by
  rw [joined, List.intercalate_cons_cons, List.append_assoc]
  rfl

/-- In front of what is read already, the text has tokens that the reader takes for the value. -/
def WrittenFor {β : Type} (text : List Char) (read : List Token → Option (β × List Token))
    (value : β) : Prop :=
  ∀ ⦃rest : List Char⦄ ⦃tokens : List Token⦄, Scans rest tokens →
    ∃ found, Scans (text ++ rest) found ∧ read found = some (value, tokens)

/-- The same with fixed tokens in front, which the reader asks for. -/
theorem WrittenFor.behind {β : Type} {front text : List Char} {head : List Token}
    {read : List Token → Option (β × List Token)} {value : β} (h : WrittenFor text read value)
    (hhead : ∀ {rest tokens}, Scans rest tokens → Scans (front ++ rest) (head ++ tokens)) :
    WrittenFor (front ++ text) (fun tokens => (tokens.dropPrefix? head).bind read) value := by
  intro rest tokens hrest
  obtain ⟨found, hfound, hread⟩ := h hrest
  refine ⟨head ++ found, ?_, ?_⟩
  · rw [List.append_assoc]
    exact hhead hfound
  · simp only [List.dropPrefix?_append_of_beq found (beq_self_eq_true head)]
    exact hread

section Written

variable {rest : List Char} {tokens : List Token} {block : List UInt8}

theorem written_codes (hne : block ≠ []) :
    WrittenFor (joined [','] (block.map fun b => Nat.toDigits 10 b.toNat) ++ [')']) codes?
      (block.map UInt8.toNat) := by
  intro rest tokens h
  induction block with
  | nil => exact absurd rfl hne
  | cons b block ih =>
    cases block with
    | nil =>
      have hclose : Scans (')' :: rest) (.symbol .parenClose :: tokens) := .token rfl rfl h
      have hscans := scans_toDigits b.toNat (.inr rfl) hclose
      refine ⟨.number (Nat.toDigits 10 b.toNat) :: .symbol .parenClose :: tokens, ?_, ?_⟩
      · simpa [joined_singleton] using hscans
      · simp [codes?, decimal?_toDigits]
    | cons c block =>
      obtain ⟨found, hfound, hread⟩ := ih (List.cons_ne_nil c block)
      have hcomma : Scans (',' :: _) (.symbol .comma :: found) := .token rfl rfl hfound
      have hscans := scans_toDigits b.toNat (.inl rfl) hcomma
      refine ⟨.number (Nat.toDigits 10 b.toNat) :: .symbol .comma :: found, ?_, ?_⟩
      · simpa [joined_cons_cons] using hscans
      · simp [codes?, decimal?_toDigits, hread]

theorem written_arguments (hne : block ≠ []) :
    WrittenFor (joined [','] (block.map fun b => Nat.toDigits 10 b.toNat) ++ [')']) arguments?
      (block.map UInt8.toNat) := by
  intro rest tokens h
  obtain ⟨found, hfound, hread⟩ := written_codes hne h
  refine ⟨found, hfound, ?_⟩
  unfold arguments?
  split
  · cases hread
  · exact hread

theorem scans_charHead (h : Scans rest tokens) :
    Scans ("string.char(".toList ++ rest) (charHead ++ tokens) := by
  have htext : "string.char(".toList =
      ['s', 't', 'r', 'i', 'n', 'g', '.', 'c', 'h', 'a', 'r', '('] := String.toList_ofList
  rw [htext]
  exact .token rfl rfl (.token rfl rfl (.token rfl rfl (.token rfl rfl h)))

theorem written_charCall (hne : block ≠ []) :
    WrittenFor (charCall block) charCall? (block.map UInt8.toNat) := by
  unfold charCall
  rw [List.append_assoc]
  exact (written_arguments hne).behind scans_charHead

theorem written_charCalls {blocks : List (List UInt8)} (hne : blocks ≠ [])
    (hblocks : ∀ block ∈ blocks, block ≠ []) :
    WrittenFor (joined [',', ' '] (blocks.map charCall) ++ [' ', '\x7d']) charCalls?
      (blocks.map (·.map UInt8.toNat)) := by
  intro rest tokens h
  induction blocks with
  | nil => exact absurd rfl hne
  | cons block blocks ih =>
    obtain ⟨hblock, hblocks⟩ := List.forall_mem_cons.mp hblocks
    cases blocks with
    | nil =>
      have hclose : Scans (' ' :: '\x7d' :: rest) (.symbol .braceClose :: tokens) :=
        .blank rfl (.token rfl rfl h)
      obtain ⟨found, hfound, hread⟩ := written_charCall hblock hclose
      refine ⟨found, ?_, ?_⟩
      · simpa [joined_singleton] using hfound
      · rw [charCalls?]
        split <;> simp_all
    | cons next blocks =>
      obtain ⟨more, hmore, hreadMore⟩ := ih (List.cons_ne_nil next blocks) hblocks
      have hcomma : Scans (',' :: ' ' :: _) (.symbol .comma :: more) :=
        .token rfl rfl (.blank rfl hmore)
      obtain ⟨found, hfound, hread⟩ := written_charCall hblock hcomma
      refine ⟨found, ?_, ?_⟩
      · simpa [joined_cons_cons] using hfound
      · rw [charCalls?]
        split <;> simp_all

theorem scans_concatHead (h : Scans rest tokens) :
    Scans ("table.concat(\x7b ".toList ++ rest) (concatHead ++ tokens) := by
  have htext : "table.concat(\x7b ".toList =
      ['t', 'a', 'b', 'l', 'e', '.', 'c', 'o', 'n', 'c', 'a', 't', '(', '\x7b', ' '] :=
    String.toList_ofList
  rw [htext]
  exact .token rfl rfl (.token rfl rfl (.token rfl rfl (.token rfl rfl (.token rfl rfl
    (.blank rfl h)))))

theorem written_tableArgument {blocks : List (List UInt8)} (hne : blocks ≠ [])
    (hblocks : ∀ block ∈ blocks, block ≠ []) :
    WrittenFor (joined [',', ' '] (blocks.map charCall) ++ [' ', '\x7d', ')']) tableArgument?
      (blocks.map (·.map UInt8.toNat)) := by
  intro rest tokens h
  have hclose : Scans (')' :: rest) (.symbol .parenClose :: tokens) := .token rfl rfl h
  obtain ⟨found, hfound, hread⟩ := written_charCalls hne hblocks hclose
  refine ⟨found, ?_, ?_⟩
  · simpa using hfound
  · rw [tableArgument?, hread]

theorem written_concatCall {blocks : List (List UInt8)} (hne : blocks ≠ [])
    (hblocks : ∀ block ∈ blocks, block ≠ []) :
    WrittenFor ("table.concat(\x7b ".toList ++ joined [',', ' '] (blocks.map charCall) ++
      " \x7d)".toList) concatCall? (blocks.map (·.map UInt8.toNat)) := by
  have hend : " \x7d)".toList = [' ', '\x7d', ')'] := String.toList_ofList
  rw [hend, List.append_assoc]
  exact (written_tableArgument hne hblocks).behind scans_concatHead

theorem expression?_of_charCall? {codes : List Nat} {behind : List Token}
    (h : charCall? tokens = some (codes, behind)) : expression? tokens = some ([codes], behind) := by
  unfold expression?
  split
  · cases h
  · rw [h]
    rfl

theorem charCall?_of_concatCall? {calls : List (List Nat)} {behind : List Token}
    (h : concatCall? tokens = some (calls, behind)) : charCall? tokens = none := by
  obtain ⟨found, hfound, -⟩ := Option.bind_eq_some_iff.mp h
  obtain ⟨head, rfl, hhead⟩ := List.dropPrefix?_eq_some_iff.mp hfound
  rw [beq_iff_eq.mp hhead]
  rfl

theorem expression?_of_concatCall? {calls : List (List Nat)} {behind : List Token}
    (h : concatCall? tokens = some (calls, behind)) : expression? tokens = some (calls, behind) := by
  have hother := charCall?_of_concatCall? h
  unfold expression?
  split
  · cases h
  · rw [hother, h]
    rfl

theorem written_expression (bytes : List UInt8) :
    WrittenFor (bytesExpression bytes) expression?
      ((blocks (blockSize - 1) bytes).map (·.map UInt8.toNat)) := by
  have hblocks : ∀ block ∈ blocks (blockSize - 1) bytes, block ≠ [] := fun block hblock =>
    List.length_pos_iff.mp (length_of_mem_blocks hblock).1
  intro rest tokens h
  unfold bytesExpression
  split
  · rename_i hnone
    rw [hnone]
    exact ⟨.string (quoted []) :: tokens, h.quoted [], if_pos (shortBytes?_quoted [])⟩
  · rename_i block hone
    obtain ⟨found, hfound, hread⟩ := written_charCall (hblocks block (by simp [hone])) h
    rw [hone]
    exact ⟨found, hfound, expression?_of_charCall? hread⟩
  · rename_i hne _
    obtain ⟨found, hfound, hread⟩ := written_concatCall hne hblocks h
    exact ⟨found, hfound, expression?_of_concatCall? hread⟩

theorem scans_declarationHead (h : Scans rest tokens) :
    Scans ("local __lp_source = ".toList ++ rest)
      (.keyword .localKw :: .name "__lp_source".toList :: .symbol .assign :: tokens) := by
  have htext : "local __lp_source = ".toList =
      ['l', 'o', 'c', 'a', 'l', ' ', '_', '_', 'l', 'p', '_', 's', 'o', 'u', 'r', 'c', 'e', ' ',
        '=', ' '] := String.toList_ofList
  rw [htext]
  exact .token rfl rfl (.blank rfl (.token rfl rfl (.blank rfl (.token rfl rfl (.blank rfl h)))))

theorem scans_load (chunk : List Char) :
    Scans ("\nlocal __lp_chunk = assert(load(__lp_source, ".toList ++ (quoted chunk ++
      "))\nreturn __lp_chunk(...)\n".toList)) (loadTokens "__lp_source".toList (quoted chunk)) := by
  have hhead : Scans "\nlocal __lp_chunk = assert(load(__lp_source, ".toList
      [.keyword .localKw, .name "__lp_chunk".toList, .symbol .assign, .name "assert".toList,
        .symbol .parenOpen, .name "load".toList, .symbol .parenOpen, .name "__lp_source".toList,
        .symbol .comma] :=
    scans_literal (n := 17) rfl (by decide)
  have hend : Scans "))\nreturn __lp_chunk(...)\n".toList
      [.symbol .parenClose, .symbol .parenClose, .keyword .returnKw, .name "__lp_chunk".toList,
        .symbol .parenOpen, .symbol .ellipsis, .symbol .parenClose] :=
    scans_literal (n := 12) rfl (by decide)
  exact hhead.append_quoted (by decide) chunk hend

theorem declaration?_encode (source chunk : List Char) :
    ∃ found, tokenize (encode source chunk) = .ok found ∧
      declaration? (found.map Lexeme.token) =
        some (("__lp_source".toList, (blocks (blockSize - 1) (bytes source)).map
          (·.map UInt8.toNat)), loadTokens "__lp_source".toList (quoted chunk)) := by
  obtain ⟨tokens, htokens, hread⟩ := written_expression (bytes source) (scans_load chunk)
  have hscans : Scans (encode source chunk)
      (.keyword .localKw :: .name "__lp_source".toList :: .symbol .assign :: tokens) := by
    have happend := scans_declarationHead htokens
    rwa [← List.append_assoc, ← List.append_assoc, ← List.append_assoc] at happend
  have hhead : (encode source chunk).head? ≠ some '#' := by
    have hlocal : "local __lp_source = ".toList.head? = some 'l' := by decide
    unfold encode
    repeat rw [List.head?_append]
    rw [hlocal]
    nofun
  obtain ⟨found, hfound, hmap⟩ := hscans.exists_tokenize hhead
  refine ⟨found, hfound, ?_⟩
  rw [hmap, declaration?, hread]
  rfl

end Written

/-- An encoding is read back: its first statement rebuilds the bytes of the source in calls of at
most 200 codes, and the rest loads them under a literal that denotes the chunk name. -/
theorem encode_read_back (source chunk : List Char) :
    ∃ found calls literal, tokenize (encode source chunk) = .ok found ∧
      declaration? (found.map Lexeme.token) =
        some (("__lp_source".toList, calls), loadTokens "__lp_source".toList literal) ∧
      calls.flatten = (bytes source).map UInt8.toNat ∧
      calls.length = (bytes source).length ⌈/⌉ 200 ∧
      (∀ codes ∈ calls, 1 ≤ codes.length ∧ codes.length ≤ 200 ∧ ∀ code ∈ codes, code ≤ 255) ∧
      shortBytes? literal = some (bytes chunk) := by
  obtain ⟨found, hfound, hread⟩ := declaration?_encode source chunk
  refine ⟨found, _, _, hfound, hread, ?_, ?_, ?_, shortBytes?_quoted chunk⟩
  · rw [← List.map_flatten, flatten_blocks]
  · rw [List.length_map, length_blocks]
    rfl
  · intro codes hcodes
    obtain ⟨block, hblock, rfl⟩ := List.mem_map.mp hcodes
    obtain ⟨hmin, hmax⟩ := length_of_mem_blocks hblock
    rw [List.length_map]
    refine ⟨hmin, hmax, fun code hcode => ?_⟩
    obtain ⟨byte, -, rfl⟩ := List.mem_map.mp hcode
    exact Nat.le_of_lt_succ byte.toNat_lt

/-- Source and chunk name are known from the encoding. -/
theorem encode_inj {source source' chunk chunk' : List Char} :
    encode source chunk = encode source' chunk' ↔ source = source' ∧ chunk = chunk' := by
  constructor
  · intro h
    obtain ⟨found, hfound, hread⟩ := declaration?_encode source chunk
    obtain ⟨found', hfound', hread'⟩ := declaration?_encode source' chunk'
    rw [h, hfound', Except.ok.injEq] at hfound
    subst hfound
    rw [hread'] at hread
    obtain ⟨hdeclared, hload⟩ := Prod.mk.inj (Option.some.inj hread)
    have hliteral : quoted chunk' = quoted chunk := by simpa [loadTokens] using hload
    have hflat := congrArg List.flatten (Prod.mk.inj hdeclared).2
    rw [← List.map_flatten, ← List.map_flatten, flatten_blocks, flatten_blocks] at hflat
    have hbytes : bytes source' = bytes source :=
      List.map_injective_iff.mpr (fun _ _ => UInt8.toNat_inj.mp) hflat
    exact ⟨utf8_injective hbytes.symm, quoted_inj.mp hliteral.symm⟩
  · rintro ⟨rfl, rfl⟩
    rfl

end LuaBundle.Obfuscation
