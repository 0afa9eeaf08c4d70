import LuaBundle.Bundle.Assembly
import LuaBundle.Proofs.Lua.Quoted
import LuaBundle.Proofs.OrderedMap

/-!
# Sources stay in their loaders

A bundle is read back token by token: between the fixed tokens of its tables stand, for each module,
the tokens of its source and nothing else. Every part of the text is made of whole lines, so no part
goes on with the one before it.
-/
namespace LuaBundle.Bundle

open Lua

/-- The tokens of a text on its own, comments included; none if it cannot be read. -/
def tokensOf (source : List Char) : List Token :=
  match tokenize source with
  | .ok found => found.map Lexeme.token
  | .error _ => []

/-- Stands for `[name] =`. -/
def keyTokens (name : String) : List Token :=
  [.symbol .bracketOpen, .string (quotedName name), .symbol .bracketClose, .symbol .assign]

def loaderTokens (name : String) (body : List Token) : List Token :=
  let head : List Token :=
    [.keyword .functionKw, .symbol .parenOpen, .symbol .ellipsis, .symbol .parenClose]
  let close : List Token := [.keyword .endKw, .symbol .comma]
  keyTokens name ++ head ++ body ++ close

def aliasTokens (id name : String) : List Token :=
  let value : List Token := [.string (quotedName name), .symbol .comma]
  keyTokens id ++ value

/-- A row without entries is not written. -/
def rowTokens (requester : String) (row : List (String × String)) : List Token :=
  let close : List Token := [.symbol .braceClose, .symbol .comma]
  if row = [] then []
  else
    keyTokens requester ++ [Token.symbol .braceOpen] ++
      row.flatMap (fun (id, name) => aliasTokens id name) ++ close

def tableHead (name : String) : List Token :=
  [.keyword .localKw, .name name.toList, .symbol .assign, .symbol .braceOpen]

/-- Stands for `local function run_entry(...) local results = table.pack(__lp_call(`. -/
def callHead : List Token :=
  [.keyword .localKw, .keyword .functionKw, .name "run_entry".toList, .symbol .parenOpen,
    .symbol .ellipsis, .symbol .parenClose, .keyword .localKw, .name "results".toList,
    .symbol .assign, .name "table".toList, .symbol .dot, .name "pack".toList, .symbol .parenOpen,
    .name "__lp_call".toList, .symbol .parenOpen]

/-- Stands for `, ...)) local first = results[1] if first == nil then first = true`. -/
def firstResult : List Token :=
  [.symbol .comma, .symbol .ellipsis, .symbol .parenClose, .symbol .parenClose, .keyword .localKw,
    .name "first".toList, .symbol .assign, .name "results".toList, .symbol .bracketOpen,
    .number ['1'], .symbol .bracketClose, .keyword .ifKw, .name "first".toList, .symbol .equal,
    .keyword .nilKw, .keyword .thenKw, .name "first".toList, .symbol .assign, .keyword .trueKw]

/-- Stands for `end if __lp_cache[`. -/
def cacheTest : List Token :=
  [.keyword .endKw, .keyword .ifKw, .name "__lp_cache".toList, .symbol .bracketOpen]

/-- Stands for `] == nil then __lp_cache[`. -/
def cacheSet : List Token :=
  [.symbol .bracketClose, .symbol .equal, .keyword .nilKw, .keyword .thenKw,
    .name "__lp_cache".toList, .symbol .bracketOpen]

/-- Stands for `] = first end return table.unpack(results, 1, results.n) end`. -/
def callEnd : List Token :=
  [.symbol .bracketClose, .symbol .assign, .name "first".toList, .keyword .endKw,
    .keyword .returnKw, .name "table".toList, .symbol .dot, .name "unpack".toList,
    .symbol .parenOpen, .name "results".toList, .symbol .comma, .number ['1'], .symbol .comma,
    .name "results".toList, .symbol .dot, .name "n".toList, .symbol .parenClose, .keyword .endKw]

/-- Stands for `return run_entry(...)`. -/
def runEntry : List Token :=
  [.keyword .returnKw, .name "run_entry".toList, .symbol .parenOpen, .symbol .ellipsis,
    .symbol .parenClose]

/-- The function that calls the entry, and the call of that function. -/
def entryTokens (entryName : String) : List Token :=
  let entry : Token := .string (quotedName entryName)
  callHead ++ entry :: (firstResult ++ (cacheTest ++ entry :: (cacheSet ++ entry :: (callEnd ++
    runEntry))))

/-- The two tables, the runtime and the call of the entry. A row of aliases has the entries that
lead from one name to another of the bundle. -/
def bundleTokens (aliases : Aliases) (entryName : String)
    (sources : OrderedMap String (List Char)) : List Token :=
  tableHead "__lp_modules" ++
    sources.entries.flatMap (fun (name, source) => loaderTokens name (tokensOf source)) ++
    Token.symbol .braceClose :: tableHead "__lp_aliases" ++
    aliases.entries.flatMap (fun (requester, targets) =>
      rowTokens requester (targets.entries.filter fun e => e.1 ≠ e.2 ∧ e.2 ∈ sources.keys)) ++
    [Token.symbol .braceClose] ++ tokensOf runtime ++ entryTokens entryName

/-! ### Loaders -/

section Loaders

variable {source body : List Char} {tokens : List Token} {found : List Lexeme}

theorem tokensOf_eq (h : tokenize source = .ok found) :
    tokensOf source = found.map Lexeme.token := by
  rw [tokensOf, h]

/-- Behind the line that is no code, a source is read as the lexer reads it on its own. -/
theorem scans_dropHashLine (h : tokenize source = .ok found) :
    Scans (dropHashLine source) (tokensOf source) := by
  rw [tokensOf_eq h]
  unfold tokenize at h
  unfold dropHashLine
  split at h
  · rename_i hhash
    rw [if_pos hhash]
    exact .of_scan h
  · rename_i hhash
    rw [if_neg hhash]
    exact .of_scan h

theorem wholeLines_closeBody (h : Scans body tokens) : WholeLines (closeBody body) tokens := by
  unfold closeBody
  split
  · rename_i hclosed
    exact ⟨h, hclosed⟩
  · exact .of_scans h

/-- A line that begins with a name in brackets. -/
theorem wholeLines_key (name : String) {rest : List Char} (h : Scans rest tokens)
    (hlast : rest.getLast? = some '\n') :
    WholeLines ('[' :: quotedName name ++ rest)
      (.symbol .bracketOpen :: .string (quotedName name) :: tokens) := by
  have hopen : Scans ['['] [.symbol .bracketOpen] := scans_of_within (n := 1) (by decide)
  constructor
  case scans => exact hopen.append_quoted (by decide) name.toList h
  case closed =>
    right
    rw [List.getLast?_append, hlast]
    rfl

theorem wholeLines_loader (name : String) (h : Scans body tokens) :
    WholeLines (loader name body) (loaderTokens name tokens) := by
  have hhead : Scans "] = function(...)\n".toList
      [.symbol .bracketClose, .symbol .assign, .keyword .functionKw, .symbol .parenOpen,
        .symbol .ellipsis, .symbol .parenClose] :=
    scans_literal (n := 18) rfl (by decide)
  have hclose : WholeLines "end,\n".toList [.keyword .endKw, .symbol .comma] :=
    wholeLines_literal (n := 5) rfl (by decide)
  have hopen := wholeLines_key name hhead (by decide)
  exact (hopen.append (wholeLines_closeBody h)).append hclose

end Loaders

/-! ### Aliases -/

section Aliases

theorem wholeLines_aliasLine (id name : String) :
    WholeLines (aliasLine id name) (aliasTokens id name) := by
  have hkey : Scans "] = ".toList [.symbol .bracketClose, .symbol .assign] :=
    scans_literal (n := 4) rfl (by decide)
  have hend : Scans [',', '\n'] [.symbol .comma] := scans_of_within (n := 2) (by decide)
  have hvalue := hkey.append_quoted (by decide) name.toList hend
  have hline := wholeLines_key id hvalue (by rw [List.getLast?_append, List.getLast?_append]; rfl)
  rwa [← List.append_assoc, ← List.append_assoc] at hline

theorem wholeLines_aliasRow (requester : String) {row : List (String × String)} (hrow : row ≠ []) :
    WholeLines (aliasRow requester row) (rowTokens requester row) := by
  have hhead : Scans "] = \x7b\n".toList
      [.symbol .bracketClose, .symbol .assign, .symbol .braceOpen] :=
    scans_literal (n := 6) rfl (by decide)
  have hclose : WholeLines "\x7d,\n".toList [.symbol .braceClose, .symbol .comma] :=
    wholeLines_literal (n := 3) rfl (by decide)
  have hopen := wholeLines_key requester hhead (by decide)
  have hentries : WholeLines (row.flatMap fun (id, name) => aliasLine id name)
      (row.flatMap fun (id, name) => aliasTokens id name) :=
    WholeLines.flatMap fun e _ => wholeLines_aliasLine e.1 e.2
  rw [rowTokens, if_neg hrow]
  exact (hopen.append hentries).append hclose

/-- A row that keeps nothing is left out of the text, and has no tokens. -/
theorem wholeLines_rows (rows : List (String × List (String × String))) :
    WholeLines ((rows.filter fun (_, row) => !row.isEmpty).flatMap fun (requester, row) =>
        aliasRow requester row)
      (rows.flatMap fun (requester, row) => rowTokens requester row) := by
  induction rows with
  | nil => exact .nil
  | cons e rows ih =>
    obtain ⟨requester, row⟩ := e
    cases row with
    | nil => exact ih
    | cons entry row => exact (wholeLines_aliasRow requester (List.cons_ne_nil entry row)).append ih

theorem keptAliases_eq (sources : OrderedMap String (List Char))
    (targets : OrderedMap String String) :
    keptAliases sources targets =
      targets.entries.filter fun e => e.1 ≠ e.2 ∧ e.2 ∈ sources.keys := by
  unfold keptAliases
  apply List.filter_congr
  intro e _
  simp only [OrderedMap.contains_iff]

theorem wholeLines_aliases (aliases : Aliases) (sources : OrderedMap String (List Char)) :
    WholeLines ((tables aliases sources).aliases.flatMap fun (requester, row) =>
        aliasRow requester row)
      (aliases.entries.flatMap fun (requester, targets) =>
        rowTokens requester (targets.entries.filter fun e => e.1 ≠ e.2 ∧ e.2 ∈ sources.keys)) := by
  have hrows := wholeLines_rows (aliases.entries.map fun (requester, targets) =>
    (requester, keptAliases sources targets))
  simpa only [tables, List.flatMap_map, keptAliases_eq] using hrows

end Aliases

/-! ### Fixed parts -/

/-- The runtime is fixed, so reading it shows that it can be read. -/
theorem tokenize_runtime :
    ∃ found, tokenize runtime = .ok found ∧ WholeLines runtime (found.map Lexeme.token) := by
  have hfixed : (scanWithin 1200 runtime).isSome = true ∧ runtime.head? = some 'l' ∧
      runtime.getLast? = some '\n' := by
    rw [runtime, String.toList_intercalate]
    simp only [List.map_cons, List.map_nil]
    repeat rw [String.toList_ofList]
    decide +kernel
  obtain ⟨hread, hhead, hlast⟩ := hfixed
  obtain ⟨tokens, htokens⟩ := Option.isSome_iff_exists.mp hread
  have hscans : Scans runtime tokens := scans_of_within htokens
  obtain ⟨found, hfound, rfl⟩ := hscans.exists_tokenize (by rw [hhead]; decide)
  exact ⟨found, hfound, hscans, .inr hlast⟩

theorem wholeLines_runtime : WholeLines runtime (tokensOf runtime) := by
  obtain ⟨found, hfound, hlines⟩ := tokenize_runtime
  rwa [tokensOf_eq hfound]

theorem wholeLines_entryCall (entryName : String) :
    WholeLines (entryCall entryName) (entryTokens entryName) := by
  unfold entryCall
  simp only [List.append_assoc]
  repeat rw [String.toList_ofList]
  constructor
  case scans =>
    -- the name's literal stands three times, each between two fixed texts
    apply Scans.append_quoted (scans_of_within (n := 80) (by decide)) (by decide)
    apply WholeLines.scans_append
    · exact ⟨scans_of_within (n := 100) (by decide), .inr (by decide)⟩
    apply Scans.append_quoted (scans_of_within (n := 24) (by decide)) (by decide)
    apply Scans.append_quoted (scans_of_within (n := 38) (by decide)) (by decide)
    apply WholeLines.scans_append
    · exact ⟨scans_of_within (n := 90) (by decide), .inr (by decide)⟩
    exact scans_of_within (n := 30) (by decide)
  case closed =>
    right
    simp only [List.getLast?_append]
    rfl

/-! ### The bundle -/

section Bundles

variable {sources : OrderedMap String (List Char)}

theorem wholeLines_modules (aliases : Aliases)
    (h : ∀ e ∈ sources.entries, ∃ found, tokenize e.2 = .ok found) :
    WholeLines ((tables aliases sources).modules.flatMap fun (name, body) => loader name body)
      (sources.entries.flatMap fun (name, source) => loaderTokens name (tokensOf source)) := by
  simp only [tables, List.flatMap_map]
  apply WholeLines.flatMap
  intro e he
  obtain ⟨found, hfound⟩ := h e he
  exact wholeLines_loader e.1 (scans_dropHashLine hfound)

theorem wholeLines_render (aliases : Aliases) (entryName : String)
    (h : ∀ e ∈ sources.entries, ∃ found, tokenize e.2 = .ok found) :
    WholeLines (assembleSources aliases entryName sources)
      (bundleTokens aliases entryName sources) := by
  have hmodules : WholeLines "local __lp_modules = \x7b\n".toList (tableHead "__lp_modules") :=
    wholeLines_literal (n := 24) rfl (by decide)
  have haliases : WholeLines "\x7d\n\nlocal __lp_aliases = \x7b\n".toList
      (.symbol .braceClose :: tableHead "__lp_aliases") :=
    wholeLines_literal (n := 27) rfl (by decide)
  have hend : WholeLines "\x7d\n\n".toList [.symbol .braceClose] :=
    wholeLines_literal (n := 3) rfl (by decide)
  have htables := (((hmodules.append (wholeLines_modules aliases h)).append haliases).append
    (wholeLines_aliases aliases sources)).append hend
  exact (htables.append wholeLines_runtime).append (wholeLines_entryCall entryName)

/-- A bundle whose sources are read on their own is read: its tokens are those of its tables, its
runtime and the call of its entry, and each source's tokens stand in its own loader. -/
theorem assembleSources_tokens (aliases : Aliases) (entryName : String)
    (h : ∀ e ∈ sources.entries, ∃ found, tokenize e.2 = .ok found) :
    (∃ found, tokenize runtime = .ok found) ∧
      ∃ found, tokenize (assembleSources aliases entryName sources) = .ok found ∧
        found.map Lexeme.token = bundleTokens aliases entryName sources := by
  obtain ⟨core, hcore, -⟩ := tokenize_runtime
  refine ⟨⟨core, hcore⟩, ?_⟩
  apply (wholeLines_render aliases entryName h).scans.exists_tokenize
  have hhead : "local __lp_modules = \x7b\n".toList.head? = some 'l' := by decide
  unfold assembleSources Tables.render
  repeat rw [List.head?_append]
  rw [hhead]
  nofun

end Bundles

/-- A library that begins with a line that is no code and ends with a comment, and its user. -/
def commentedSources : OrderedMap String (List Char) :=
  .ofList [("lib.util", "#!/bin/lua\nreturn 1 -- done".toList), ("main", "u = 2".toList)]

def commentedAliases : Aliases :=
  .ofList [("lib.util", .ofList [("main", "main")]),
    ("main", .ofList [("gone", "lib.gone"), ("util", "lib.util")])]

theorem commented_in_loaders :
    (∀ e ∈ commentedSources.entries, ∃ found, tokenize e.2 = .ok found) ∧
      ∃ found, tokenize (assembleSources commentedAliases "main" commentedSources) = .ok found ∧
        found.map Lexeme.token =
          tableHead "__lp_modules" ++
            (loaderTokens "lib.util"
                [.keyword .returnKw, .number ['1'], .comment "-- done".toList] ++
              loaderTokens "main" [.name ['u'], .symbol .assign, .number ['2']]) ++
            Token.symbol .braceClose :: tableHead "__lp_aliases" ++
            rowTokens "main" [("util", "lib.util")] ++
            [Token.symbol .braceClose] ++ tokensOf runtime ++ entryTokens "main" := by
  have hentries : commentedSources.entries =
      [("lib.util", "#!/bin/lua\nreturn 1 -- done".toList), ("main", "u = 2".toList)] := by
    decide
  have hread : ∀ e ∈ commentedSources.entries, ∃ found, tokenize e.2 = .ok found := by
    rw [hentries]
    simp only [List.forall_mem_cons]
    exact ⟨⟨_, by cbv⟩, ⟨_, by cbv⟩, nofun⟩
  obtain ⟨-, found, hfound, htokens⟩ := assembleSources_tokens commentedAliases "main" hread
  have hlibrary : tokensOf "#!/bin/lua\nreturn 1 -- done".toList =
      [.keyword .returnKw, .number ['1'], .comment "-- done".toList] := by cbv
  have hmain : tokensOf "u = 2".toList = [.name ['u'], .symbol .assign, .number ['2']] := by cbv
  have haliases : (commentedAliases.entries.flatMap fun (requester, targets) =>
      rowTokens requester (targets.entries.filter fun e =>
        e.1 ≠ e.2 ∧ e.2 ∈ commentedSources.keys)) = rowTokens "main" [("util", "lib.util")] := by
    decide
  refine ⟨hread, found, hfound, htokens.trans ?_⟩
  rw [bundleTokens, haliases, hentries, List.flatMap_cons, List.flatMap_cons, List.flatMap_nil,
    List.append_nil, ← hlibrary, ← hmain]

end LuaBundle.Bundle
