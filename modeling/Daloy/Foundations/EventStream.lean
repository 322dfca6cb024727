import Daloy.Foundations.Text
import Daloy.Foundations.UrlStandard

/-! # Event streams

Nothing here mentions a program. The interpretation of `text/event-stream` bytes, and texts as
lines.

* `splitLines`: the pieces between the line ends, which are CRLF, CR and LF.
* `interpretBytes`: what a client dispatches for the bytes of a stream.
* `toWellFormed_unit`: lone surrogates are replaced piece by piece around a unit that is none.
* `interpret_lines`: a stream that is given line by line.
-/

namespace Daloy.EventStream
set_option autoImplicit false

open Daloy.Json Daloy.Unicode

def lineFeed : UInt16 := 0x0A
def carriageReturn : UInt16 := 0x0D
def colon : UInt16 := 0x3A
def space : UInt16 := 0x20

/-! ## Lines -/

def splitLines (afterCr : Bool) : JsString → List JsString
  | [] => [[]]
  | u :: s =>
    if afterCr ∧ u = lineFeed then splitLines false s
    else if u = carriageReturn then [] :: splitLines true s
    else if u = lineFeed then [] :: splitLines false s
    else (splitLines false s).modifyHead (u :: ·)

def normalizeNewlines (afterCr : Bool) : JsString → JsString
  | [] => []
  | u :: s =>
    if afterCr ∧ u = lineFeed then normalizeNewlines false s
    else if u = carriageReturn then lineFeed :: normalizeNewlines true s
    else u :: normalizeNewlines false s

def IsLine (s : JsString) : Prop := ∀ u ∈ s, u ≠ lineFeed ∧ u ≠ carriageReturn

theorem IsLine.append {s t : JsString} (hs : IsLine s) (ht : IsLine t) : IsLine (s ++ t) := by
  intro u hu
  obtain hu | hu := List.mem_append.mp hu
  · exact hs u hu
  · exact ht u hu

theorem splitLines_ne_nil (afterCr : Bool) (s : JsString) : splitLines afterCr s ≠ [] := by
  induction s generalizing afterCr with
  | nil => simp [splitLines]
  | cons u s ih =>
    rw [splitLines]
    split
    · exact ih false
    split
    · exact List.cons_ne_nil _ _
    split
    · exact List.cons_ne_nil _ _
    · cases hpieces : splitLines false s with
      | nil => exact absurd hpieces (ih false)
      | cons piece pieces => simp

theorem splitLines_lines (afterCr : Bool) (s : JsString) :
    ∀ piece ∈ splitLines afterCr s, IsLine piece := by
  induction s generalizing afterCr with
  | nil => simp [splitLines, IsLine]
  | cons u s ih =>
    have hnil : IsLine [] := by simp [IsLine]
    rw [splitLines]
    split
    · exact ih false
    split
    · exact List.forall_mem_cons.mpr ⟨hnil, ih true⟩
    split
    · exact List.forall_mem_cons.mpr ⟨hnil, ih false⟩
    · rename_i hcr hlf
      cases hpieces : splitLines false s with
      | nil => exact absurd hpieces (splitLines_ne_nil false s)
      | cons piece pieces =>
        have hall := ih false
        rw [hpieces, List.forall_mem_cons] at hall
        rw [List.modifyHead_cons, List.forall_mem_cons]
        refine ⟨?_, hall.2⟩
        exact List.forall_mem_cons.mpr ⟨⟨hlf, hcr⟩, hall.1⟩

theorem intercalate_splitLines (afterCr : Bool) (s : JsString) :
    [lineFeed].intercalate (splitLines afterCr s) = normalizeNewlines afterCr s := by
  have hcons (first : JsString) {pieces : List JsString} (hne : pieces ≠ []) :
      [lineFeed].intercalate (first :: pieces) =
        first ++ lineFeed :: [lineFeed].intercalate pieces := by
    obtain ⟨second, rest, rfl⟩ := List.exists_cons_of_ne_nil hne
    rw [List.intercalate_cons_cons, List.append_assoc]
    rfl
  induction s generalizing afterCr with
  | nil => rfl
  | cons u s ih =>
    rw [splitLines, normalizeNewlines]
    split
    · exact ih false
    split
    · rw [hcons [] (splitLines_ne_nil true s), ih true]
      rfl
    split
    · rename_i hlf
      rw [hcons [] (splitLines_ne_nil false s), ih false, hlf]
      rfl
    · rw [← ih false]
      obtain ⟨first, rest, hpieces⟩ := List.exists_cons_of_ne_nil (splitLines_ne_nil false s)
      rw [hpieces, List.modifyHead_cons]
      cases rest with
      | nil => simp
      | cons second rest => simp

theorem splitLines_line {line : JsString} (h : IsLine line) (rest : JsString) :
    splitLines false (line ++ lineFeed :: rest) = line :: splitLines false rest := by
  induction line with
  | nil =>
    rw [List.nil_append, splitLines, if_neg (by simp), if_neg (by decide), if_pos rfl]
  | cons u line ih =>
    have hu := h u List.mem_cons_self
    rw [List.cons_append, splitLines, if_neg (by simp), if_neg hu.2, if_neg hu.1,
      ih fun v hv => h v (List.mem_cons_of_mem _ hv), List.modifyHead_cons]

/-! ## The interpretation -/

structure Event where
  type : JsString
  data : JsString
  lastEventId : JsString
  deriving DecidableEq

/-- The buffers of a client, and the events that it dispatched. -/
structure Parser where
  data : JsString := []
  eventType : JsString := []
  lastEventId : JsString := []
  reconnectionTime : Option ℕ := none
  dispatched : List Event := []

def withoutLastFeed (data : JsString) : JsString :=
  if data.getLast? = some lineFeed then data.dropLast else data

def Parser.dispatch (p : Parser) : Parser :=
  if p.data = [] then { p with eventType := [] }
  else
    { p with
      data := []
      eventType := []
      dispatched := p.dispatched ++
        [⟨if p.eventType = [] then js "message" else p.eventType, withoutLastFeed p.data,
          p.lastEventId⟩] }

def Parser.processField (p : Parser) (name value : JsString) : Parser :=
  if name = js "event" then { p with eventType := value }
  else if name = js "data" then { p with data := p.data ++ value ++ [lineFeed] }
  else if name = js "id" then if 0x00 ∈ value then p else { p with lastEventId := value }
  else if name = js "retry" then
    if value ≠ [] ∧ value.all isDigit then { p with reconnectionTime := some (decimal value) }
    else p
  else p

def withoutSpace (value : JsString) : JsString :=
  if value.head? = some space then value.tail else value

def Parser.processLine (p : Parser) (line : JsString) : Parser :=
  if line = [] then p.dispatch
  else if line.head? = some colon then p
  else if colon ∈ line then
    p.processField (line.takeWhile (· ≠ colon))
      (withoutSpace (line.dropWhile (· ≠ colon)).tail)
  else p.processField line []

def interpret (text : JsString) : Parser :=
  (splitLines false text).dropLast.foldl Parser.processLine {}

/-- What is dispatched for the bytes of a stream, `none` where they are no UTF-8. -/
def interpretBytes (bytes : List UInt8) : Option Parser := (decodeText bytes).map interpret

def linesText (lines : List JsString) : JsString := lines.flatMap (· ++ [lineFeed])

theorem interpret_lines {lines : List JsString} (h : ∀ line ∈ lines, IsLine line) :
    interpret (linesText lines) = lines.foldl Parser.processLine {} := by
  have hsplit : splitLines false (linesText lines) = lines ++ [[]] := by
    unfold linesText
    induction lines with
    | nil => rfl
    | cons line lines ih =>
      rw [List.flatMap_cons, List.append_assoc, List.singleton_append,
        splitLines_line (h line List.mem_cons_self),
        ih fun l hl => h l (List.mem_cons_of_mem _ hl), List.cons_append]
  rw [interpret, hsplit, List.dropLast_concat]

theorem processLine_comment (p : Parser) (s : JsString) : p.processLine (colon :: s) = p := rfl

theorem processLine_field (p : Parser) {name : JsString} (hne : name ≠ []) (h : colon ∉ name)
    (value : JsString) :
    p.processLine (name ++ colon :: space :: value) = p.processField name value := by
  have hall : ∀ u ∈ name, decide (u ≠ colon) = true := by
    intro u hu
    rw [decide_eq_true_eq]
    rintro rfl
    exact h hu
  have hhead : (name ++ colon :: space :: value).head? ≠ some colon := by
    obtain ⟨u, rest, rfl⟩ := List.exists_cons_of_ne_nil hne
    intro hcolon
    rw [List.cons_append, List.head?_cons, Option.some_inj] at hcolon
    exact h (hcolon ▸ List.mem_cons_self)
  rw [Parser.processLine, if_neg (by simp), if_neg hhead, if_pos (by simp),
    List.takeWhile_append_of_pos hall, List.dropWhile_append_of_pos hall,
    List.takeWhile_cons_of_neg (by simp), List.dropWhile_cons_of_neg (by simp), List.append_nil]
  rfl

theorem processLine_data (p : Parser) (lines : List JsString) :
    (lines.map (js "data: " ++ ·)).foldl Parser.processLine p =
      { p with data := p.data ++ linesText lines } := by
  induction lines generalizing p with
  | nil => simp [linesText]
  | cons line lines ih =>
    have hline : p.processLine (js "data: " ++ line) =
        { p with data := p.data ++ line ++ [lineFeed] } :=
      @processLine_field p (js "data") (by decide) (by decide) line
    rw [List.map_cons, List.foldl_cons, hline, ih]
    simp [linesText]

theorem withoutLastFeed_linesText {lines : List JsString} (h : lines ≠ []) :
    withoutLastFeed (linesText lines) = [lineFeed].intercalate lines := by
  have htext : linesText lines = [lineFeed].intercalate lines ++ [lineFeed] := by
    unfold linesText
    induction lines with
    | nil => exact absurd rfl h
    | cons line lines ih =>
      cases lines with
      | nil => simp
      | cons second rest =>
        rw [List.flatMap_cons, ih (List.cons_ne_nil _ _), List.intercalate_cons_cons]
        simp
  rw [htext, withoutLastFeed, List.getLast?_concat, if_pos rfl, List.dropLast_concat]

/-! ## Lone surrogates -/

def toWellFormed (s : JsString) : JsString := utf16 (scalars s)

theorem scalars_unit_append (s : JsString) {u : UInt16} (h : IsPlain u) (t : JsString) :
    scalars (s ++ u :: t) = scalars s ++ scalars (u :: t) := by
  fun_induction scalars s with
  | case1 => rfl
  | case2 v =>
    by_cases hhigh : isHighSurrogate v = true
    · simp [scalars, hhigh, h.2]
    · simp [scalars, hhigh]
  | case3 v w rest hhigh hlow ih =>
    rw [List.cons_append, List.cons_append, scalars_pair v w _ hhigh hlow, ih, List.cons_append]
  | case4 v w rest hhigh hlow ih =>
    rw [List.cons_append, List.cons_append, scalars, if_pos hhigh, if_neg hlow,
      ← List.cons_append, ih, List.cons_append]
  | case5 v w rest hhigh ih =>
    rw [List.cons_append, List.cons_append, scalars, if_neg hhigh, ← List.cons_append, ih,
      List.cons_append]

theorem toWellFormed_singleton {u : UInt16} (h : IsPlain u) : toWellFormed [u] = [u] := by
  have hlt := u.toNat_lt
  rw [toWellFormed, scalars_unit u [] h.1 h.2, utf16_cons, utf16Char, char_toNat h,
    if_pos (by omega), UInt16.ofNat_toNat]
  rfl

theorem toWellFormed_unit (s : JsString) {u : UInt16} (h : IsPlain u) (t : JsString) :
    toWellFormed (s ++ u :: t) = toWellFormed s ++ u :: toWellFormed t := by
  have hone : utf16 (scalars [u]) = [u] := toWellFormed_singleton h
  have hsplit : scalars (u :: t) = scalars [u] ++ scalars t := by
    rw [scalars_unit u t h.1 h.2, scalars_unit u [] h.1 h.2]
    rfl
  rw [toWellFormed, scalars_unit_append s h, hsplit, utf16_append, utf16_append, hone]
  rfl

theorem toWellFormed_append {s : JsString} (h : ∀ u ∈ s, IsPlain u) (t : JsString) :
    toWellFormed (s ++ t) = s ++ toWellFormed t := by
  induction s with
  | nil => rfl
  | cons u s ih =>
    have htail := toWellFormed_unit [] (h u List.mem_cons_self) (s ++ t)
    rw [List.nil_append] at htail
    rw [List.cons_append, htail, ih fun v hv => h v (List.mem_cons_of_mem _ hv)]
    rfl

theorem mem_of_mem_toWellFormed {s : JsString} {u : UInt16} (hu : u ∈ toWellFormed s)
    (h : u.toNat < 0x80) : u ∈ s := by
  obtain ⟨c, hc, hunit⟩ := List.mem_flatMap.mp hu
  have hlt := toNat_lt c
  rw [utf16Char] at hunit
  split at hunit
  · rename_i hbmp
    obtain rfl := List.mem_singleton.mp hunit
    rw [UInt16.toNat_ofNat_of_lt' hbmp] at h
    exact UrlStandard.mem_of_mem_scalars hc h
  · have hlarge : ∀ n, n < 0x10000 → 0xD800 ≤ n → u = UInt16.ofNat n → False := by
      intro n hn hge heq
      rw [heq, UInt16.toNat_ofNat_of_lt' hn] at h
      omega
    obtain heq | heq := List.mem_cons.mp hunit
    · exact absurd heq (hlarge _ (by omega) (by omega))
    · exact absurd (List.mem_singleton.mp heq) (hlarge _ (by omega) (by omega))

theorem IsLine.toWellFormed {s : JsString} (h : IsLine s) : IsLine (toWellFormed s) := by
  intro u hu
  refine ⟨?_, ?_⟩
  · rintro rfl
    exact (h _ (mem_of_mem_toWellFormed hu (by decide))).1 rfl
  · rintro rfl
    exact (h _ (mem_of_mem_toWellFormed hu (by decide))).2 rfl

theorem toWellFormed_linesText (lines : List JsString) :
    toWellFormed (linesText lines) = linesText (lines.map EventStream.toWellFormed) := by
  induction lines with
  | nil => rfl
  | cons line lines ih =>
    have htext : linesText (line :: lines) = line ++ lineFeed :: linesText lines := by
      simp [linesText]
    rw [htext, toWellFormed_unit line (by decide), ih]
    simp [linesText]

theorem toWellFormed_intercalate (lines : List JsString) :
    toWellFormed ([lineFeed].intercalate lines) =
      [lineFeed].intercalate (lines.map EventStream.toWellFormed) := by
  induction lines with
  | nil => rfl
  | cons line lines ih =>
    cases lines with
    | nil => simp
    | cons second rest =>
      have hplain : IsPlain lineFeed := by decide
      rw [List.intercalate_cons_cons, List.append_assoc, List.singleton_append,
        toWellFormed_unit line hplain, ih]
      simp only [List.map_cons, List.intercalate_cons_cons, List.append_assoc]
      rfl

theorem interpretBytes_blocks {blocks : List (List JsString)}
    (hlines : ∀ block ∈ blocks, ∀ line ∈ block, IsLine line)
    (hstart : ∀ block ∈ blocks, ∃ u rest, linesText block = u :: rest ∧ u.toNat < 0x80) :
    interpretBytes (blocks.flatMap fun block => encodeText (linesText block)) =
      some (blocks.foldl (fun p block =>
        (block.map EventStream.toWellFormed).foldl Parser.processLine p) {}) := by
  have hbytes : (blocks.flatMap fun block => encodeText (linesText block)) =
      encodeUtf8 (blocks.flatMap fun block => scalars (linesText block)) := by
    rw [encodeUtf8, List.flatMap_assoc]
    rfl
  have hbom : stripBom (blocks.flatMap fun block => scalars (linesText block)) =
      blocks.flatMap fun block => scalars (linesText block) := by
    rw [stripBom_eq_self]
    cases blocks with
    | nil => simp
    | cons block blocks =>
      obtain ⟨u, rest, htext, hlt⟩ := hstart block List.mem_cons_self
      have hplain : IsPlain u := by
        simp only [IsPlain, isHighSurrogate, isLowSurrogate, Bool.and_eq_false_iff,
          decide_eq_false_iff_not]
        omega
      rw [List.flatMap_cons, htext, scalars_unit u rest hplain.1 hplain.2, List.cons_append,
        List.head?_cons, ne_eq, Option.some_inj]
      intro hmark
      have hvalue : u.toNat = byteOrderMark.toNat := by rw [← hmark, char_toNat hplain]
      have hlarge : 0x80 ≤ byteOrderMark.toNat := by decide
      omega
  have htext : utf16 (blocks.flatMap fun block => scalars (linesText block)) =
      linesText (blocks.flatMap fun block => block.map EventStream.toWellFormed) := by
    rw [utf16, linesText, List.flatMap_assoc, List.flatMap_assoc]
    exact List.flatMap_congr fun block _ => toWellFormed_linesText block
  rw [interpretBytes, hbytes, decodeText_encodeUtf8, hbom, htext, Option.map_some,
    interpret_lines, List.foldl_flatMap]
  intro line hline
  obtain ⟨block, hblock, hline⟩ := List.mem_flatMap.mp hline
  obtain ⟨line, hmem, rfl⟩ := List.mem_map.mp hline
  exact (hlines block hblock line hmem).toWellFormed

end Daloy.EventStream
