import Daloy.Foundations.GreedyPatterns
import Daloy.Foundations.JsMap
import Daloy.Foundations.Unicode
import Mathlib.Data.List.Find

/-! # URI templates

`compileUriTemplate` and `matchUriTemplate` of `src/mcp.ts`.

* `fillTable`: the table of what can still be matched, from the right to the left.
* `greedy`: the captures, from the left to the right.
* `matchUriTemplate_eq`: both together are the anchored pattern, but for how the captures are kept.
-/

namespace Daloy.Mcp
set_option autoImplicit false

open Daloy.Unicode Daloy.GreedyPatterns

/-! ## Compiling -/

def openBrace : UInt16 := 0x7B
def closeBrace : UInt16 := 0x7D
def slash : UInt16 := 0x2F

inductive TemplateError
  | unterminated
  | unsupported (name : JsString)
  deriving DecidableEq

/-- `/^[A-Za-z0-9_]+$/`. -/
def isVariableName (name : JsString) : Bool :=
  name ≠ [] && name.all fun u => (0x41 ≤ u.toNat && u.toNat ≤ 0x5A) ||
    (0x61 ≤ u.toNat && u.toNat ≤ 0x7A) || (0x30 ≤ u.toNat && u.toNat ≤ 0x39) || u == 0x5F

/-- The loop of `compileUriTemplate` over the text that is left: the literals and the variables. -/
def compileLoop (text : JsString) : Except TemplateError (List JsString × List JsString) :=
  match h : text.dropWhile (· ≠ openBrace) with
  | [] => .ok ([text], [])
  | _ :: behind =>
    let literal := text.takeWhile (· ≠ openBrace)
    match h' : behind.dropWhile (· ≠ closeBrace) with
    | [] => .error .unterminated
    | _ :: rest =>
      let name := behind.takeWhile (· ≠ closeBrace)
      if isVariableName name then
        (compileLoop rest).map fun e => (literal :: e.1, name :: e.2)
      else .error (.unsupported name)
termination_by text.length
decreasing_by
  have hle := (List.dropWhile_suffix (· ≠ openBrace) (l := text)).length_le
  have hle' := (List.dropWhile_suffix (· ≠ closeBrace) (l := behind)).length_le
  rw [h] at hle
  rw [h'] at hle'
  simp only [List.length_cons] at hle hle'
  omega

theorem length_compileLoop {text : JsString} {e : List JsString × List JsString}
    (h : compileLoop text = .ok e) : e.1.length = e.2.length + 1 := by
  fun_induction compileLoop text generalizing e with
  | case1 text hopen =>
    rw [← Except.ok.inj h]
    rfl
  | case2 text u behind hopen hclose => cases h
  | case3 text u behind hopen literal v rest hclose name hname =>
    rename_i ih
    cases hrest : compileLoop rest with
    | error error =>
      rw [hrest] at h
      cases h
    | ok e' =>
      rw [hrest] at h
      rw [← Except.ok.inj h]
      simp [ih hrest]
  | case4 => cases h

/-- A template, with a literal more than variables. -/
structure CompiledUriTemplate where
  literals : List JsString
  vars : List JsString
  length : literals.length = vars.length + 1
  deriving DecidableEq

def compileUriTemplate (uriTemplate : JsString) : Except TemplateError CompiledUriTemplate :=
  match h : compileLoop uriTemplate with
  | .ok e => .ok ⟨e.1, e.2, length_compileLoop h⟩
  | .error error => .error error

/-! ## Matching -/

def startsWith (uri literal : JsString) (e : ℕ) : Bool := literal.isPrefixOf (uri.drop e)

/-- `endOk(j, e)`, for the literal behind variable `j` and the row of the next variable, if there is
one. -/
def endOk (uri literal : JsString) (next : Option (List Bool)) (e : ℕ) : Bool :=
  match next with
  | none => e + literal.length = uri.length && startsWith uri literal e
  | some row => startsWith uri literal e && row[e + literal.length]? == some true

/-- A row of the table, from position `p` on; the positions in front of `first` stay empty. -/
def fillRow (ok : ℕ → Bool) (first : ℕ) : ℕ → JsString → List Bool
  | _, [] => [false]
  | p, u :: rest =>
    let row := fillRow ok first (p + 1) rest
    (first ≤ p && u ≠ slash && (row.head? == some true || ok (p + 1))) :: row

def fillTable (uri : JsString) (first : ℕ) : List JsString → List (List Bool)
  | [] => []
  | literal :: literals =>
    let table := fillTable uri first literals
    fillRow (endOk uri literal table.head?) first 0 uri :: table

/-- The loop for the furthest end, from position `e` on. -/
def furthest (ok : ℕ → Bool) : ℕ → JsString → Option ℕ → Option ℕ
  | e, [], best => if ok e then some e else best
  | e, u :: rest, best =>
    let best := if ok e then some e else best
    if u = slash then best else furthest ok (e + 1) rest best

/-- The loop over the variables, from position `p` on; no captures where an end is missing. -/
def greedy (uri : JsString) : ℕ → List JsString → List (List Bool) → Option (List JsString)
  | p, literal :: literals, _ :: table => do
    let best ← if p + 1 ≤ uri.length then
        furthest (endOk uri literal table.head?) (p + 1) (uri.drop (p + 1)) none
      else none
    let captures ← greedy uri (best + literal.length) literals table
    return (uri.take best).drop p :: captures
  | _, _, _ => some []

def protoKey : JsString := js "__proto__"

/-- `out[name] = text`. -/
def setCapture (out : JsMap JsString JsString) (name text : JsString) : JsMap JsString JsString :=
  if name = protoKey then out else out.set name text

def keepCaptures (captures : List (JsString × JsString)) : JsMap JsString JsString :=
  captures.foldl (fun out e => setCapture out e.1 e.2) ∅

/-- The match against the literal in front, and the variables with the literals behind them. -/
def matchParts (head : JsString) (literals vars : List JsString) (uri : JsString) :
    Option (JsMap JsString JsString) :=
  if vars = [] then if uri = head then some ∅ else none
  else
    let tail := literals.getLastD []
    if !head.isPrefixOf uri || uri.length < head.length + tail.length + vars.length ||
        !tail.isSuffixOf uri then none
    else
      let table := fillTable uri head.length literals
      if (table.headD [])[head.length]? = some true then
        (greedy uri head.length literals table).map fun captures =>
          keepCaptures (vars.zip captures)
      else none

def matchUriTemplate (compiled : CompiledUriTemplate) (uri : JsString) :
    Option (JsMap JsString JsString) :=
  matchParts (compiled.literals.headD []) compiled.literals.tail compiled.vars uri

/-! ## The pattern -/

def pattern (compiled : CompiledUriTemplate) (uri : JsString) : Option (List JsString) :=
  behind (compiled.literals.headD [])
    (exec (fun u => u == slash) compiled.literals.tail) uri

abbrev execFrom (literals : List JsString) : JsString → Option (List JsString) :=
  exec (fun u => u == slash) literals

abbrev continueAt (literal : JsString) (literals : List JsString) :
    JsString → Option (List JsString) := behind literal (execFrom literals)

/-! ## The table -/

theorem head_fillRow {ok : ℕ → Bool} {uri : JsString} {first : ℕ}
    {k : JsString → Option (List JsString)}
    (hok : ∀ e, first ≤ e → e ≤ uri.length → ok e = (k (uri.drop e)).isSome) (s : JsString)
    {p : ℕ} (hs : s = uri.drop p) (hp : p ≤ uri.length) (hfirst : first ≤ p) :
    (fillRow ok first p s).head? = some (plus (fun u => u == slash) k s).isSome := by
  induction s generalizing p with
  | nil => rfl
  | cons u rest ih =>
    have hlt : p < uri.length := by
      by_contra hge
      rw [List.drop_eq_nil_of_le (by omega)] at hs
      cases hs
    have hrest : rest = uri.drop (p + 1) := by
      rw [List.drop_eq_getElem_cons hlt] at hs
      exact (List.cons.inj hs).2
    have ih := ih hrest (by omega) (by omega)
    rw [fillRow, plus_cons, List.head?_cons, ih, hok (p + 1) (by omega) (by omega), ← hrest]
    by_cases hu : u = slash
    · simp [hu]
    · simp [hu, hfirst, many_isSome]

theorem getElem?_fillRow (ok : ℕ → Bool) (first : ℕ) (s : JsString) (p i : ℕ)
    (hi : i ≤ s.length) : (fillRow ok first p s)[i]? = (fillRow ok first (p + i) (s.drop i)).head? := by
  induction i generalizing s p with
  | zero =>
    rw [Nat.add_zero, List.drop_zero]
    cases s <;> rfl
  | succ i ih =>
    cases s with
    | nil => simp at hi
    | cons u rest =>
      rw [fillRow, List.getElem?_cons_succ, ih rest (p + 1) (by simpa using hi), List.drop_succ_cons,
        Nat.add_assoc, Nat.add_comm 1 i]

theorem getElem?_row {ok : ℕ → Bool} {uri : JsString} {first : ℕ}
    {k : JsString → Option (List JsString)}
    (hok : ∀ e, first ≤ e → e ≤ uri.length → ok e = (k (uri.drop e)).isSome) {p : ℕ}
    (hp : p ≤ uri.length) (hfirst : first ≤ p) :
    (fillRow ok first 0 uri)[p]? = some (plus (fun u => u == slash) k (uri.drop p)).isSome := by
  rw [getElem?_fillRow ok first uri 0 p hp, Nat.zero_add]
  exact head_fillRow hok _ rfl hp hfirst

def Tells (uri : JsString) (first : ℕ) (literals : List JsString)
    (next : Option (List Bool)) : Prop :=
  match next with
  | none => literals = []
  | some row => ∀ p, p ≤ uri.length → first ≤ p →
    row[p]? = some (execFrom literals (uri.drop p)).isSome

theorem endOk_eq {uri literal : JsString} {first : ℕ} {literals : List JsString}
    {next : Option (List Bool)} (h : Tells uri first literals next) {e : ℕ} (he : e ≤ uri.length)
    (hfirst : first ≤ e) :
    endOk uri literal next e = (continueAt literal literals (uri.drop e)).isSome := by
  have hlength : (uri.drop e).length = uri.length - e := List.length_drop
  rw [endOk.eq_def, continueAt, behind]
  cases hstarts : literal.isPrefixOf (uri.drop e) with
  | false =>
    rw [if_neg (by simp)]
    cases next <;> simp [startsWith, hstarts]
  | true =>
    have hle := (List.isPrefixOf_iff_prefix.mp hstarts).length_le
    rw [if_pos rfl]
    cases next with
    | none =>
      obtain rfl : literals = [] := h
      have hnil : (uri.drop e).drop literal.length = [] ↔ e + literal.length = uri.length := by
        rw [List.drop_eq_nil_iff]
        omega
      rw [startsWith, hstarts, execFrom, exec]
      by_cases hend : e + literal.length = uri.length
      · simp [hend, hnil.mpr hend]
      · rw [if_neg (mt hnil.mp hend)]
        simp [hend]
    | some row =>
      have hrow := h (e + literal.length) (by omega) (by omega)
      dsimp only
      rw [startsWith, hstarts, hrow, List.drop_drop]
      simp

theorem tells_fillTable (uri : JsString) (first : ℕ) (literals : List JsString) :
    Tells uri first literals (fillTable uri first literals).head? := by
  induction literals with
  | nil => rfl
  | cons literal literals ih =>
    intro p hp hfirst
    rw [getElem?_row (k := continueAt literal literals)
      (fun e hfirst he => endOk_eq ih he hfirst) hp hfirst, execFrom, exec, Option.isSome_map]

/-! ## The captures -/

theorem furthest_eq {ok : ℕ → Bool} {uri : JsString} {first : ℕ}
    {k : JsString → Option (List JsString)}
    (hok : ∀ e, first ≤ e → e ≤ uri.length → ok e = (k (uri.drop e)).isSome) (s : JsString)
    {e : ℕ} (hs : s = uri.drop e) (he : e ≤ uri.length) (hfirst : first ≤ e) (best : Option ℕ) :
    furthest ok e s best =
      match many (fun u => u == slash) k s with
      | some found => some (e + found.1.length)
      | none => best := by
  induction s generalizing e best with
  | nil =>
    rw [furthest, hok e hfirst he, ← hs, many, plus]
    cases k [] <;> simp
  | cons u rest ih =>
    have hlt : e < uri.length := by
      by_contra hge
      rw [List.drop_eq_nil_of_le (by omega)] at hs
      cases hs
    have hrest : rest = uri.drop (e + 1) := by
      rw [List.drop_eq_getElem_cons hlt] at hs
      exact (List.cons.inj hs).2
    have hhere : (if ok e = true then some e else best) =
        ((k (u :: rest)).map fun _ => e).orElse fun _ => best := by
      rw [hok e hfirst he, ← hs]
      cases k (u :: rest) <;> rfl
    by_cases hu : u = slash
    · have hplus : plus (fun u => u == slash) k (u :: rest) = none := by
        rw [plus_cons, if_pos (by simp [hu])]
      rw [furthest, if_pos hu, hhere, many, hplus]
      cases k (u :: rest) <;> rfl
    · have hplus : plus (fun u => u == slash) k (u :: rest) =
          (many (fun u => u == slash) k rest).map fun e => (u :: e.1, e.2) := by
        rw [plus_cons, if_neg (by simp [hu])]
      rw [furthest, if_neg hu, hhere, ih hrest (by omega) (by omega),
        many.eq_def _ k (u :: rest), hplus]
      cases many (fun u => u == slash) k rest with
      | none => cases k (u :: rest) <;> rfl
      | some found =>
        simp only [Option.map_some, List.length_cons]
        congr 1
        omega

theorem greedy_eq {uri : JsString} {first : ℕ} (literals : List JsString) {p : ℕ}
    (hp : p ≤ uri.length) (hfirst : first ≤ p) {captures : List JsString}
    (h : execFrom literals (uri.drop p) = some captures) :
    greedy uri p literals (fillTable uri first literals) = some captures := by
  induction literals generalizing p captures with
  | nil =>
    rw [execFrom, exec] at h
    split at h
    · rw [← Option.some.inj h]
      rfl
    · cases h
  | cons literal literals ih =>
    have hok : ∀ e, first ≤ e → e ≤ uri.length →
        endOk uri literal (fillTable uri first literals).head? e =
          (continueAt literal literals (uri.drop e)).isSome :=
      fun e hfirst he => endOk_eq (tells_fillTable uri first literals) he hfirst
    rw [execFrom, exec] at h
    obtain ⟨⟨c, cs⟩, hplus, rfl⟩ := Option.map_eq_some_iff.mp h
    obtain ⟨hne, -, front, hdrop, hbehind⟩ := plus_eq_some hplus
    obtain ⟨rest, rfl, hrest⟩ := behind_eq_some.mp hbehind
    have hlt : p < uri.length := by
      by_contra hge
      rw [List.drop_eq_nil_of_le (by omega)] at hplus
      cases hplus
    have hcons := List.drop_eq_getElem_cons hlt
    -- the first symbol is taken, then the loop looks for the furthest end
    rw [hcons, plus_cons] at hplus
    have hmany : ∃ c', many (fun u => u == slash) (continueAt literal literals)
        (uri.drop (p + 1)) = some (c', cs) ∧ c = uri[p] :: c' := by
      split at hplus
      · cases hplus
      · obtain ⟨⟨c', b⟩, hmany, heq⟩ := Option.map_eq_some_iff.mp hplus
        obtain ⟨rfl, rfl⟩ := Prod.mk.inj heq
        exact ⟨c', hmany, rfl⟩
    obtain ⟨c', hmany, rfl⟩ := hmany
    have hfurthest := furthest_eq hok (uri.drop (p + 1)) rfl (by omega) (by omega) none
    rw [hmany] at hfurthest
    have hlength : uri.length = p + (c'.length + 1) + literal.length + rest.length := by
      have hlen := congrArg List.length hdrop
      simp only [List.length_drop, List.length_append, List.length_cons] at hlen
      omega
    have hbest : p + 1 + c'.length = p + (c'.length + 1) := by omega
    have hnext : uri.drop (p + 1 + c'.length + literal.length) = rest := by
      rw [hbest, Nat.add_assoc, ← List.drop_drop, hdrop, ← List.length_cons (a := uri[p]),
        ← List.drop_drop, List.drop_left, List.drop_left]
    have hcapture : (uri.take (p + 1 + c'.length)).drop p = uri[p] :: c' := by
      rw [hbest, List.drop_take, hdrop, Nat.add_sub_cancel_left, ← List.length_cons (a := uri[p]),
        List.take_left]
    have hgreedy : greedy uri (p + 1 + c'.length + literal.length) literals
        (fillTable uri first literals) = some cs :=
      ih (by omega) (by omega) (by rw [hnext]; exact hrest)
    rw [fillTable, greedy, if_pos (by omega), hfurthest]
    simp [hgreedy, hcapture]

/-! ## The match -/

theorem splits_last {literals captures : List JsString} {s : JsString}
    (h : Splits (fun u => u == slash) literals captures s) (hne : literals ≠ []) :
    literals.getLastD [] <:+ s ∧ (literals.getLastD []).length + literals.length ≤ s.length := by
  induction literals generalizing captures s with
  | nil => exact absurd rfl hne
  | cons literal literals ih =>
    cases captures with
    | nil => exact h.elim
    | cons c captures =>
      obtain ⟨hcapture, -, rest, rfl, hrest⟩ := h
      have hpos := List.length_pos_iff.mpr hcapture
      cases literals with
      | nil =>
        cases captures with
        | nil =>
          obtain rfl : rest = [] := hrest
          rw [List.append_nil]
          refine ⟨List.suffix_append _ _, ?_⟩
          simp only [List.getLastD, List.getLast, List.length_append, List.length_singleton]
          omega
        | cons c' captures => exact hrest.elim
      | cons next literals =>
        obtain ⟨hsuffix, hlength⟩ := ih hrest (by simp)
        have hlast : (literal :: next :: literals).getLastD [] = (next :: literals).getLastD [] := rfl
        rw [hlast]
        refine ⟨hsuffix.trans ((List.suffix_append _ _).trans (List.suffix_append _ _)), ?_⟩
        simp only [List.length_append, List.length_cons] at hlength ⊢
        omega

theorem pattern_checks {head : JsString} {literals : List JsString} (hne : literals ≠ [])
    {uri : JsString} {captures : List JsString}
    (h : behind head (execFrom literals) uri = some captures) :
    head.isPrefixOf uri = true ∧
      head.length + (literals.getLastD []).length + literals.length ≤ uri.length ∧
      (literals.getLastD []).isSuffixOf uri = true := by
  obtain ⟨rest, rfl, hrest⟩ := behind_eq_some.mp h
  obtain ⟨hsuffix, hlength⟩ := splits_last (exec_splits hrest) hne
  refine ⟨List.isPrefixOf_iff_prefix.mpr (List.prefix_append _ _), ?_,
    List.isSuffixOf_iff_suffix.mpr (hsuffix.trans (List.suffix_append _ _))⟩
  rw [List.length_append]
  omega

theorem matchParts_eq (head : JsString) {literals vars : List JsString}
    (hcount : literals.length = vars.length) (uri : JsString) :
    matchParts head literals vars uri =
      (behind head (execFrom literals) uri).map fun captures =>
        keepCaptures (vars.zip captures) := by
  rw [matchParts]
  by_cases hvars : vars = []
  · obtain rfl : literals = [] := by
      rw [hvars, List.length_nil] at hcount
      exact List.length_eq_zero_iff.mp hcount
    subst hvars
    rw [if_pos rfl, behind]
    by_cases huri : uri = head
    · subst huri
      simp [exec, keepCaptures]
    · rw [if_neg huri]
      by_cases hstarts : head.isPrefixOf uri = true
      · obtain ⟨rest, rfl⟩ := List.isPrefixOf_iff_prefix.mp hstarts
        have hrest : rest ≠ [] := fun hnil => huri (by rw [hnil, List.append_nil])
        have hexec : execFrom [] rest = none := by rw [execFrom, exec, if_neg hrest]
        rw [if_pos hstarts, List.drop_left, hexec]
        rfl
      · rw [if_neg hstarts]
        rfl
  · have hne : literals ≠ [] := by
      rintro rfl
      exact hvars (List.length_eq_zero_iff.mp hcount.symm)
    rw [if_neg hvars, ← hcount]
    cases hpattern : behind head (execFrom literals) uri with
    | some captures =>
      obtain ⟨hstarts, hlength, hsuffix⟩ := pattern_checks hne hpattern
      obtain ⟨rest, rfl, hrest⟩ := behind_eq_some.mp hpattern
      have hexec : execFrom literals ((head ++ rest).drop head.length) = some captures := by
        rwa [List.drop_left]
      have hgreedy : greedy (head ++ rest) head.length literals
          (fillTable (head ++ rest) head.length literals) = some captures :=
        greedy_eq literals (by simp) (Nat.le_refl _) hexec
      obtain ⟨literal, literals, rfl⟩ := List.exists_cons_of_ne_nil hne
      have hrow := tells_fillTable (head ++ rest) head.length (literal :: literals) head.length
        (by simp) (Nat.le_refl _)
      have hchecks : ¬ (!head.isPrefixOf (head ++ rest) ||
          (head ++ rest).length < head.length + ((literal :: literals).getLastD []).length +
            (literal :: literals).length ||
          !((literal :: literals).getLastD []).isSuffixOf (head ++ rest)) = true := by
        rw [hstarts, hsuffix, decide_eq_false (by omega)]
        decide
      dsimp only
      rw [if_neg hchecks]
      rw [fillTable] at hgreedy ⊢
      rw [List.headD_cons, hrow, hexec, if_pos (by rfl), hgreedy]
    | none =>
      dsimp only
      rw [Option.map_none]
      split
      · rfl
      · rename_i hchecks
        simp only [Bool.or_eq_true, Bool.not_eq_true', decide_eq_true_eq, not_or,
          Bool.not_eq_false] at hchecks
        obtain ⟨⟨hstarts, -⟩, -⟩ := hchecks
        obtain ⟨rest, rfl⟩ := List.isPrefixOf_iff_prefix.mp hstarts
        obtain ⟨literal, literals, rfl⟩ := List.exists_cons_of_ne_nil hne
        have hrow := tells_fillTable (head ++ rest) head.length (literal :: literals) head.length
          (by simp) (Nat.le_refl _)
        have hexec : execFrom (literal :: literals) rest = none := by
          rwa [behind, if_pos hstarts, List.drop_left] at hpattern
        rw [List.drop_left, hexec] at hrow
        rw [fillTable, List.headD_cons, hrow, if_neg (by simp)]

theorem matchUriTemplate_eq (compiled : CompiledUriTemplate) (uri : JsString) :
    matchUriTemplate compiled uri =
      (pattern compiled uri).map fun captures => keepCaptures (compiled.vars.zip captures) := by
  have hcount : compiled.literals.tail.length = compiled.vars.length := by
    rw [List.length_tail, compiled.length, Nat.add_sub_cancel]
  exact matchParts_eq _ hcount uri

/-! ## The captures by name -/

def Exact (compiled : CompiledUriTemplate) (uri : JsString) : Prop :=
  match pattern compiled uri, matchUriTemplate compiled uri with
  | none, none => True
  | some captures, some out => captures.length = compiled.vars.length ∧ ∀ name, out.get? name =
      ((compiled.vars.zip captures).find? fun e => e.1 = name).map Prod.snd
  | _, _ => False

theorem length_of_splits {literals captures : List JsString} {s : JsString}
    (h : Splits (fun u => u == slash) literals captures s) : captures.length = literals.length := by
  induction literals generalizing captures s with
  | nil =>
    cases captures with
    | nil => rfl
    | cons c captures => exact h.elim
  | cons literal literals ih =>
    cases captures with
    | nil => exact h.elim
    | cons c captures =>
      obtain ⟨-, -, rest, -, hrest⟩ := h
      rw [List.length_cons, List.length_cons, ih hrest]

theorem keepCaptures_eq (entries : List (JsString × JsString)) (out : JsMap JsString JsString) :
    entries.foldl (fun out e => setCapture out e.1 e.2) out =
      (entries.filter fun e => e.1 ≠ protoKey).foldl (fun out e => out.set e.1 e.2) out := by
  induction entries generalizing out with
  | nil => rfl
  | cons e entries ih =>
    rw [List.foldl_cons, ih, List.filter_cons]
    by_cases he : e.1 = protoKey
    · rw [setCapture, if_pos he, if_neg (by simp [he])]
    · rw [setCapture, if_neg he, if_pos (by simp [he]), List.foldl_cons]

theorem get?_keepCaptures {entries : List (JsString × JsString)}
    (h : (entries.map Prod.fst).Nodup) (name : JsString) :
    (keepCaptures entries).get? name =
      if name = protoKey then none else (entries.find? fun e => e.1 = name).map Prod.snd := by
  rw [keepCaptures, keepCaptures_eq, JsMap.get?_setAll _ (h.sublist (List.filter_sublist.map _)),
    List.find?_filter, JsMap.get?_empty, Option.or_none]
  by_cases hname : name = protoKey
  · rw [if_pos hname, List.find?_eq_none.mpr, Option.map_none]
    intro e _
    simp only [ne_eq, decide_not, Bool.not_eq_true', decide_eq_false_iff_not,
      decide_eq_true_eq, not_and]
    intro hproto heq
    exact hproto (heq.trans hname)
  · rw [if_neg hname]
    congr 1
    refine List.find?_congr fun e _ => ?_
    by_cases he : e.1 = name
    · simp [he, hname]
    · simp [he]

/-- **The matcher and the pattern**: no match of the one is none of the other, and the captures are
those of the pattern exactly where no variable has the name of an object's prototype. -/
theorem match_exact {uriTemplate : JsString} {compiled : CompiledUriTemplate}
    (_h : compileUriTemplate uriTemplate = .ok compiled) (hdistinct : compiled.vars.Nodup)
    (uri : JsString) :
    ((matchUriTemplate compiled uri).isNone = (pattern compiled uri).isNone) ∧
      (Exact compiled uri ↔
        ((pattern compiled uri).isSome = true → protoKey ∉ compiled.vars)) := by
  rw [Exact, matchUriTemplate_eq]
  cases hpattern : pattern compiled uri with
  | none => simp
  | some captures =>
    have hlength : captures.length = compiled.vars.length := by
      obtain ⟨rest, -, hrest⟩ := behind_eq_some.mp hpattern
      have hcount := length_of_splits (exec_splits hrest)
      rw [List.length_tail, compiled.length, Nat.add_sub_cancel] at hcount
      exact hcount
    have hkeys : (compiled.vars.zip captures).map Prod.fst = compiled.vars :=
      List.map_fst_zip (by omega)
    have hget := @get?_keepCaptures (compiled.vars.zip captures) (by rwa [hkeys])
    refine ⟨rfl, ?_⟩
    simp only [Option.map_some, hget, hlength, true_and, Option.isSome_some, true_implies]
    constructor
    · intro hall hproto
      have hfound := hall protoKey
      rw [if_pos rfl] at hfound
      rw [← hkeys] at hproto
      obtain ⟨e, he, hkey⟩ := List.mem_map.mp hproto
      have hnone := Option.map_eq_none_iff.mp hfound.symm
      exact List.find?_eq_none.mp hnone e he (by simpa using hkey)
    · intro hproto name
      split
      · rename_i hname
        rw [hname, List.find?_eq_none.mpr, Option.map_none]
        intro e he
        have hmem : e.1 ∈ compiled.vars := by
          rw [← hkeys]
          exact List.mem_map_of_mem he
        have hne : e.1 ≠ protoKey := fun heq => hproto (heq ▸ hmem)
        simpa using hne
      · rfl

theorem match_exact_item : (matchUriTemplate ⟨[js "db:", js "/", []], [js "table", js "id"], rfl⟩
      (js "db:a/7")).isNone =
        (pattern ⟨[js "db:", js "/", []], [js "table", js "id"], rfl⟩ (js "db:a/7")).isNone ∧
    (Exact ⟨[js "db:", js "/", []], [js "table", js "id"], rfl⟩ (js "db:a/7") ↔
      ((pattern ⟨[js "db:", js "/", []], [js "table", js "id"], rfl⟩ (js "db:a/7")).isSome = true →
        protoKey ∉ [js "table", js "id"])) :=
  have hcompile : compileUriTemplate (js "db:{table}/{id}") =
      .ok ⟨[js "db:", js "/", []], [js "table", js "id"], rfl⟩ := by decide +kernel
  match_exact hcompile (by decide +kernel) (js "db:a/7")

theorem proto_capture_lost : ∃ compiled,
    compileUriTemplate (js "x:{__proto__}") = .ok compiled ∧ compiled.vars.Nodup ∧
      pattern compiled (js "x:a") = some [js "a"] ∧
      (matchUriTemplate compiled (js "x:a")).map (fun out => out.get? (js "__proto__")) =
        some none ∧ ¬ Exact compiled (js "x:a") := by
  refine ⟨⟨[js "x:", []], [js "__proto__"], rfl⟩, by decide +kernel, by decide, by decide +kernel,
    by decide +kernel, ?_⟩
  intro hexact
  have hfound := hexact.2 (js "__proto__")
  revert hfound
  decide +kernel

end Daloy.Mcp
