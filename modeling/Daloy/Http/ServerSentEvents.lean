import Daloy.Foundations.EventStream
import Daloy.Foundations.Numerals

/-! # Server-sent events

`encodeSSE` of `src/streaming.ts`, against the event streams of `Daloy.EventStream`.

* `sseText_eq`: the text of a message is a block of lines, the last of them empty.
* `interpret_message`: what a client makes of one block.
-/

namespace Daloy.Http.ServerSentEvents
set_option autoImplicit false

open Daloy.EventStream Daloy.Json Daloy.Unicode

variable {ν : Type} [NumberText ν]

/-! ## The source -/

/-- A message. Its data are a string or another JSON value. -/
structure SSEMessage (ν : Type) where
  data : Option (Value ν) := none
  event : Option JsString := none
  id : Option JsString := none
  retry : Option Number := none
  comment : Option JsString := none

def isLineBreak (u : UInt16) : Bool := u = carriageReturn ∨ u = EventStream.lineFeed

def isIdUnsafe (u : UInt16) : Bool := u = carriageReturn ∨ u = EventStream.lineFeed ∨ u = 0x00

/-- `s.replace(/[…]+/g, " ")`, behind a unit of a run or not. -/
def replaceRuns (inClass : UInt16 → Bool) (inRun : Bool) : JsString → JsString
  | [] => []
  | u :: s =>
    if inClass u then
      if inRun then replaceRuns inClass true s else EventStream.space :: replaceRuns inClass true s
    else u :: replaceRuns inClass false s

/-- `Math.max(0, Math.floor(n))` as a text, for a finite number. -/
def wholeText : Number → JsString
  | .finite false magnitude =>
    if (magnitude.digits.length : ℤ) ≤ magnitude.point then magnitude.text
    else NumberText.write (decimal (magnitude.units.take magnitude.point.toNat))
  | _ => [zeroUnit]

def rawData : Value ν → JsString
  | .str s => s
  | v => stringify v

def sseText (message : SSEMessage ν) : JsString :=
  (message.comment.elim [] fun comment =>
    if comment = [] then []
    else (splitLines false comment).flatMap fun line => js ": " ++ line ++ [EventStream.lineFeed]) ++
  (message.event.elim [] fun event =>
    js "event: " ++ replaceRuns isLineBreak false event ++ [EventStream.lineFeed]) ++
  (message.id.elim [] fun id =>
    js "id: " ++ replaceRuns isIdUnsafe false id ++ [EventStream.lineFeed]) ++
  (message.retry.elim [] fun retry =>
    if retry.isFinite then js "retry: " ++ wholeText retry ++ [EventStream.lineFeed] else []) ++
  (message.data.elim [] fun data =>
    (splitLines false (rawData data)).flatMap fun line =>
      js "data: " ++ line ++ [EventStream.lineFeed]) ++
  [EventStream.lineFeed]

def encodeSSE (message : SSEMessage ν) : List UInt8 := encodeText (sseText message)

/-! ## What is expected -/

def SSEMessage.type (message : SSEMessage ν) : JsString :=
  toWellFormed (replaceRuns isLineBreak false (message.event.getD []))

def SSEMessage.lastId (message : SSEMessage ν) (lastId : JsString) : JsString :=
  message.id.elim lastId fun id => toWellFormed (replaceRuns isIdUnsafe false id)

def payloadText (data : Value ν) : JsString :=
  toWellFormed (normalizeNewlines false (rawData data))

def expectedEvents (lastId : JsString) : List (SSEMessage ν) → List Event
  | [] => []
  | message :: messages =>
    (message.data.toList.map fun data =>
      ⟨if message.type = [] then js "message" else message.type, payloadText data,
        message.lastId lastId⟩) ++
      expectedEvents (message.lastId lastId) messages

/-! ## Lines -/

theorem replaceRuns_clean (inClass : UInt16 → Bool)
    (hspace : inClass EventStream.space = false) (inRun : Bool)
    (s : JsString) : ∀ u ∈ replaceRuns inClass inRun s, inClass u = false := by
  induction s generalizing inRun with
  | nil => simp [replaceRuns]
  | cons u s ih =>
    rw [replaceRuns]
    split
    · split
      · exact ih true
      · exact List.forall_mem_cons.mpr ⟨hspace, ih true⟩
    · rename_i h
      exact List.forall_mem_cons.mpr ⟨by simpa using h, ih false⟩

theorem isLine_event (event : JsString) : IsLine (replaceRuns isLineBreak false event) := by
  intro u hu
  have hclean := replaceRuns_clean isLineBreak (by decide) false event u hu
  simp only [isLineBreak, decide_eq_false_iff_not, not_or] at hclean
  exact ⟨hclean.2, hclean.1⟩

theorem isLine_id (id : JsString) :
    IsLine (replaceRuns isIdUnsafe false id) ∧ 0x00 ∉ replaceRuns isIdUnsafe false id := by
  have hclean := replaceRuns_clean isIdUnsafe (by decide) false id
  simp only [isIdUnsafe, decide_eq_false_iff_not, not_or] at hclean
  exact ⟨fun u hu => ⟨(hclean u hu).2.1, (hclean u hu).1⟩, fun hzero => (hclean _ hzero).2.2 rfl⟩

theorem isLine_number {s : JsString} (h : ∀ u ∈ s, isNumberUnit u = true) : IsLine s := by
  intro u hu
  have hunit := h u hu
  refine ⟨?_, ?_⟩
  · rintro rfl
    exact absurd hunit (by decide)
  · rintro rfl
    exact absurd hunit (by decide)

theorem isLine_wholeText (n : Number) : IsLine (wholeText n) := by
  apply isLine_number
  unfold wholeText
  split
  · rename_i magnitude
    split
    · exact magnitude.isNumberUnit_text
    · exact NumberText.write_units _
  · decide

def messageLines (message : SSEMessage ν) : List JsString :=
  (message.comment.elim [] fun comment =>
    if comment = [] then [] else (splitLines false comment).map (js ": " ++ ·)) ++
  (message.event.elim [] fun event => [js "event: " ++ replaceRuns isLineBreak false event]) ++
  (message.id.elim [] fun id => [js "id: " ++ replaceRuns isIdUnsafe false id]) ++
  (message.retry.elim [] fun retry =>
    if retry.isFinite then [js "retry: " ++ wholeText retry] else []) ++
  (message.data.elim [] fun data => (splitLines false (rawData data)).map (js "data: " ++ ·)) ++
  [[]]

theorem linesText_elim {α : Type} (x : Option α) (f : α → List JsString) :
    linesText (x.elim [] f) = x.elim [] fun a => linesText (f a) := by
  cases x with
  | none => rfl
  | some a => rfl

theorem linesText_map (pre : JsString) (lines : List JsString) :
    linesText (lines.map (pre ++ ·)) =
      lines.flatMap fun line => pre ++ line ++ [EventStream.lineFeed] := by
  rw [linesText, List.flatMap_map]

theorem sseText_eq (message : SSEMessage ν) :
    sseText message = linesText (messageLines message) := by
  have happend (l l' : List JsString) : linesText (l ++ l') = linesText l ++ linesText l' :=
    List.flatMap_append
  have hone (line : JsString) : linesText [line] = line ++ [EventStream.lineFeed] := by simp [linesText]
  have hnil : linesText [] = [] := rfl
  unfold sseText messageLines
  simp only [happend, linesText_elim, apply_ite linesText, linesText_map, hone, hnil,
    List.nil_append]

theorem mem_elim {α : Type} {x : Option α} {f : α → List JsString} {line : JsString}
    (h : line ∈ x.elim [] f) : ∃ a ∈ x, line ∈ f a := by
  cases x with
  | none => exact absurd h List.not_mem_nil
  | some a => exact ⟨a, rfl, h⟩

def fieldStarts : List JsString :=
  [js ": ", js "event: ", js "id: ", js "retry: ", js "data: "]

theorem messageLines_shape (message : SSEMessage ν) :
    ∀ line ∈ messageLines message,
      line = [] ∨ ∃ pre ∈ fieldStarts, ∃ s, IsLine s ∧ line = pre ++ s := by
  have hpieces {pre : JsString} (hpre : pre ∈ fieldStarts) {s : JsString} :
      ∀ line ∈ (splitLines false s).map (pre ++ ·),
        ∃ pre ∈ fieldStarts, ∃ s, IsLine s ∧ line = pre ++ s := by
    intro line hline
    obtain ⟨piece, hpiece, rfl⟩ := List.mem_map.mp hline
    exact ⟨pre, hpre, piece, splitLines_lines false s piece hpiece, rfl⟩
  intro line hline
  simp only [messageLines, List.mem_append, List.mem_singleton] at hline
  obtain ((((h | h) | h) | h) | h) | h := hline
  · obtain ⟨comment, -, h⟩ := mem_elim h
    split at h
    · exact absurd h List.not_mem_nil
    · exact .inr (hpieces (by simp [fieldStarts]) line h)
  · obtain ⟨event, -, h⟩ := mem_elim h
    exact .inr ⟨_, by simp [fieldStarts], _, isLine_event event, List.mem_singleton.mp h⟩
  · obtain ⟨id, -, h⟩ := mem_elim h
    exact .inr ⟨_, by simp [fieldStarts], _, (isLine_id id).1, List.mem_singleton.mp h⟩
  · obtain ⟨retry, -, h⟩ := mem_elim h
    split at h
    · exact .inr ⟨_, by simp [fieldStarts], _, isLine_wholeText retry, List.mem_singleton.mp h⟩
    · exact absurd h List.not_mem_nil
  · obtain ⟨data, -, h⟩ := mem_elim h
    exact .inr (hpieces (by simp [fieldStarts]) line h)
  · exact .inl h

theorem messageLines_lines (message : SSEMessage ν) :
    ∀ line ∈ messageLines message, IsLine line := by
  have hstarts : ∀ pre ∈ fieldStarts,
      pre.all (fun u => u ≠ EventStream.lineFeed ∧ u ≠ carriageReturn) = true := by
    decide
  simp only [List.all_eq_true, decide_eq_true_eq] at hstarts
  intro line hline
  obtain rfl | ⟨pre, hpre, s, hs, rfl⟩ := messageLines_shape message line hline
  · exact fun u hu => absurd hu List.not_mem_nil
  · exact IsLine.append (hstarts pre hpre) hs

theorem messageLines_start (message : SSEMessage ν) :
    ∃ u rest, linesText (messageLines message) = u :: rest ∧ u.toNat < 0x80 := by
  have hne : messageLines message ≠ [] := by simp [messageLines]
  obtain ⟨line, lines, hlines⟩ := List.exists_cons_of_ne_nil hne
  have hstarts : ∀ pre ∈ fieldStarts, ∃ u rest, pre = u :: rest ∧ u.toNat < 0x80 := by
    intro pre hpre
    simp only [fieldStarts, List.mem_cons, List.not_mem_nil, or_false] at hpre
    obtain rfl | rfl | rfl | rfl | rfl := hpre
    all_goals exact ⟨_, _, rfl, by decide⟩
  rw [hlines, linesText, List.flatMap_cons]
  obtain rfl | ⟨pre, hpre, s, -, rfl⟩ :=
    messageLines_shape message line (hlines ▸ List.mem_cons_self)
  · exact ⟨_, _, rfl, by decide⟩
  · obtain ⟨u, rest, rfl, hlt⟩ := hstarts pre hpre
    exact ⟨u, _, rfl, hlt⟩

/-! ## One message -/

theorem map_toWellFormed_lines (pre : JsString) (h : pre ∈ fieldStarts) (lines : List JsString) :
    (lines.map (pre ++ ·)).map toWellFormed = (lines.map toWellFormed).map (pre ++ ·) := by
  have hplain : ∀ pre ∈ fieldStarts, ∀ u ∈ pre, IsPlain u := by decide
  rw [List.map_map, List.map_map]
  exact List.map_congr_left fun line _ => toWellFormed_append (hplain pre h) line

theorem processLine_comments (p : Parser) (lines : List JsString) :
    (lines.map (js ": " ++ ·)).foldl Parser.processLine p = p := by
  induction lines with
  | nil => rfl
  | cons line lines ih =>
    have hline : p.processLine (js ": " ++ line) = p :=
      processLine_comment p (EventStream.space :: line)
    rw [List.map_cons, List.foldl_cons, hline, ih]

theorem interpret_comment (p : Parser) (comment : Option JsString) :
    ((comment.elim [] fun comment => if comment = [] then [] else
      (splitLines false comment).map (js ": " ++ ·)).map toWellFormed).foldl
        Parser.processLine p = p := by
  cases comment with
  | none => rfl
  | some comment =>
    rw [Option.elim_some]
    split
    · rfl
    · rw [map_toWellFormed_lines _ (by simp [fieldStarts]), processLine_comments]

theorem interpret_field (p : Parser) {name pre : JsString}
    (hpre : pre = name ++ [EventStream.colon, EventStream.space])
    (hmem : pre ∈ fieldStarts) (hne : name ≠ []) (hcolon : EventStream.colon ∉ name) (s : JsString) :
    p.processLine (toWellFormed (pre ++ s)) = p.processField name (toWellFormed s) := by
  have hplain : ∀ pre ∈ fieldStarts, ∀ u ∈ pre, IsPlain u := by decide
  rw [toWellFormed_append (hplain pre hmem), hpre, List.append_assoc]
  exact processLine_field p hne hcolon _

omit [NumberText ν] in
theorem interpret_event (p : Parser) (hp : p.eventType = []) (message : SSEMessage ν) :
    ((message.event.elim [] fun event =>
      [js "event: " ++ replaceRuns isLineBreak false event]).map toWellFormed).foldl
        Parser.processLine p = { p with eventType := message.type } := by
  unfold SSEMessage.type
  cases message.event with
  | none =>
    obtain ⟨data, eventType, lastEventId, time, dispatched⟩ := p
    obtain rfl : eventType = [] := hp
    rfl
  | some event =>
    rw [Option.elim_some, List.map_singleton, List.foldl_cons, List.foldl_nil,
      @interpret_field p (js "event") (js "event: ") rfl (by simp [fieldStarts]) (by decide)
        (by decide)]
    rfl

omit [NumberText ν] in
theorem interpret_id (p : Parser) (message : SSEMessage ν) :
    ((message.id.elim [] fun id =>
      [js "id: " ++ replaceRuns isIdUnsafe false id]).map toWellFormed).foldl
        Parser.processLine p = { p with lastEventId := message.lastId p.lastEventId } := by
  unfold SSEMessage.lastId
  cases message.id with
  | none => rfl
  | some id =>
    have hzero : 0x00 ∉ toWellFormed (replaceRuns isIdUnsafe false id) :=
      fun hmem => (isLine_id id).2 (mem_of_mem_toWellFormed hmem (by decide))
    rw [Option.elim_some, List.map_singleton, List.foldl_cons, List.foldl_nil,
      @interpret_field p (js "id") (js "id: ") rfl (by simp [fieldStarts]) (by decide) (by decide),
      Parser.processField, if_neg (by decide), if_neg (by decide), if_pos rfl, if_neg hzero]
    rfl

theorem interpret_retry (p : Parser) (retry : Option Number) :
    ∃ time, ((retry.elim [] fun retry =>
      if retry.isFinite then [js "retry: " ++ wholeText retry] else []).map toWellFormed).foldl
        Parser.processLine p = { p with reconnectionTime := time } := by
  cases retry with
  | none => exact ⟨p.reconnectionTime, rfl⟩
  | some retry =>
    rw [Option.elim_some]
    split
    · rw [List.map_singleton, List.foldl_cons, List.foldl_nil,
        @interpret_field p (js "retry") (js "retry: ") rfl (by simp [fieldStarts]) (by decide)
          (by decide),
        Parser.processField, if_neg (by decide), if_neg (by decide), if_neg (by decide),
        if_pos rfl]
      split
      · exact ⟨_, rfl⟩
      · exact ⟨p.reconnectionTime, rfl⟩
    · exact ⟨p.reconnectionTime, rfl⟩

theorem interpret_data (p : Parser) (hp : p.data = []) (data : Option (Value ν)) :
    (((data.elim [] fun data =>
      (splitLines false (rawData data)).map (js "data: " ++ ·)) ++ [[]]).map toWellFormed).foldl
        Parser.processLine p =
      { p with
        data := []
        eventType := []
        dispatched := p.dispatched ++ data.toList.map fun data =>
          ⟨if p.eventType = [] then js "message" else p.eventType, payloadText data,
            p.lastEventId⟩ } := by
  obtain ⟨data', eventType, lastEventId, time, dispatched⟩ := p
  obtain rfl : data' = [] := hp
  rw [List.map_append, List.foldl_append]
  cases data with
  | none => simp [toWellFormed, scalars, Parser.processLine, Parser.dispatch]
  | some data =>
    have hne : (splitLines false (rawData data)).map toWellFormed ≠ [] := by
      simpa using splitLines_ne_nil false (rawData data)
    have hpayload : withoutLastFeed
        (linesText ((splitLines false (rawData data)).map toWellFormed)) = payloadText data := by
      rw [withoutLastFeed_linesText hne, ← toWellFormed_intercalate, intercalate_splitLines,
        payloadText]
    have hdata : linesText ((splitLines false (rawData data)).map toWellFormed) ≠ [] := by
      obtain ⟨line, lines, hlines⟩ := List.exists_cons_of_ne_nil hne
      simp [hlines, linesText]
    rw [Option.elim_some, map_toWellFormed_lines _ (by simp [fieldStarts]), processLine_data]
    show Parser.dispatch _ = _
    rw [Parser.dispatch, if_neg (by simpa using hdata), List.nil_append, hpayload]
    rfl

theorem interpret_message (message : SSEMessage ν) (p : Parser) (hdata : p.data = [])
    (htype : p.eventType = []) :
    ∃ time, ((messageLines message).map toWellFormed).foldl Parser.processLine p =
      ⟨[], [], message.lastId p.lastEventId, time,
        p.dispatched ++ expectedEvents p.lastEventId [message]⟩ := by
  obtain ⟨time, htime⟩ := interpret_retry
    { p with eventType := message.type, lastEventId := message.lastId p.lastEventId } message.retry
  refine ⟨time, ?_⟩
  rw [messageLines, List.append_assoc, List.map_append, List.map_append, List.map_append,
    List.map_append, List.foldl_append, List.foldl_append, List.foldl_append, List.foldl_append,
    interpret_comment, interpret_event p htype, interpret_id, htime, interpret_data]
  · simp [expectedEvents]
  · exact hdata

/-- **Events cannot be forged**: the messages of a stream that have data are dispatched as they are,
each once, in order, whatever their texts are. -/
theorem events_of_messages (messages : List (SSEMessage ν)) :
    (interpretBytes (messages.flatMap encodeSSE)).map Parser.dispatched =
      some (expectedEvents [] messages) := by
  have hrun (p : Parser) (hdata : p.data = []) (htype : p.eventType = []) :
      ((messages.map messageLines).foldl (fun p block =>
        (block.map toWellFormed).foldl Parser.processLine p) p).dispatched =
        p.dispatched ++ expectedEvents p.lastEventId messages := by
    induction messages generalizing p with
    | nil => simp [expectedEvents]
    | cons message messages ih =>
      obtain ⟨time, hblock⟩ := interpret_message message p hdata htype
      rw [List.map_cons, List.foldl_cons, hblock, ih _ rfl rfl]
      simp [expectedEvents]
  have hblocks : messages.flatMap encodeSSE =
      (messages.map messageLines).flatMap fun block => encodeText (linesText block) := by
    rw [List.flatMap_map]
    exact List.flatMap_congr fun message _ => by rw [encodeSSE, sseText_eq]
  rw [hblocks, interpretBytes_blocks, Option.map_some, hrun _ rfl rfl]
  · rfl
  · intro block hblock
    obtain ⟨message, -, rfl⟩ := List.mem_map.mp hblock
    exact messageLines_lines message
  · intro block hblock
    obtain ⟨message, -, rfl⟩ := List.mem_map.mp hblock
    exact messageLines_start message

theorem lone_surrogate_replaced :
    (interpretBytes (encodeSSE (⟨some (.str [0xD800]), none, none, none, none⟩ :
        SSEMessage ℕ))).map (fun p => p.dispatched.map Event.data) = some [[0xFFFD]] ∧
      ([0xFFFD] : JsString) ≠ normalizeNewlines false (rawData (.str [0xD800] : Value ℕ)) := by
  decide

end Daloy.Http.ServerSentEvents
