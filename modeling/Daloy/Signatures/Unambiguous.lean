import Daloy.Foundations.Fallible
import Daloy.Signatures.Base

/-! # The signature base is unambiguous

* `readSfString_serialize`: a serialized string is read back, whatever follows it.
* `serializeComponentId_inj`: so an identifier is known from any text it starts, up to its colon.
-/

namespace Daloy.Signatures
set_option autoImplicit false

open Daloy.Unicode Daloy.Text Daloy.Fallible

/-! ## Strings -/

theorem serializeSfString_eq_ok {s text : JsString} :
    serializeSfString s = .ok text ↔
      s.all isPrintable = true ∧ text = quotationMark :: (escape s ++ [quotationMark]) := by
  rw [serializeSfString]
  split
  · next h => simp only [Except.ok.injEq, h, true_and, eq_comm]
  · next h => simp [h]

theorem readSfChars_escaped {u : UInt16} (h : u = quotationMark ∨ u = backslash)
    (src : JsString) :
    readSfChars (backslash :: u :: src) = (readSfChars src).map fun r => (u :: r.1, r.2) := by
  rw [readSfChars.eq_def]
  dsimp only
  rw [if_pos rfl, if_neg]
  rintro ⟨hquote, hbackslash⟩
  exact h.elim hquote hbackslash

theorem readSfChars_plain {u : UInt16} (hbackslash : u ≠ backslash) (hquote : u ≠ quotationMark)
    (hprintable : isPrintable u = true) (src : JsString) :
    readSfChars (u :: src) = (readSfChars src).map fun r => (u :: r.1, r.2) := by
  rw [readSfChars.eq_def]
  dsimp only
  rw [if_neg hbackslash, if_neg hquote, if_neg (by simp [hprintable])]

theorem readSfChars_end (src : JsString) : readSfChars (quotationMark :: src) = .ok ([], src) := by
  rw [readSfChars.eq_def]
  dsimp only
  rw [if_neg (by decide), if_pos rfl]

theorem readSfChars_escape {s : JsString} (h : s.all isPrintable = true) (rest : JsString) :
    readSfChars (escape s ++ quotationMark :: rest) = .ok (s, rest) := by
  induction s with
  | nil => exact readSfChars_end rest
  | cons u s ih =>
    rw [List.all_cons, Bool.and_eq_true] at h
    have hcons : escape (u :: s) =
        (if u = backslash ∨ u = quotationMark then [backslash, u] else [u]) ++ escape s := rfl
    rw [hcons]
    by_cases hescaped : u = backslash ∨ u = quotationMark
    · rw [if_pos hescaped, List.append_assoc, List.cons_append, List.cons_append, List.nil_append,
        readSfChars_escaped hescaped.symm, ih h.2]
      rfl
    · obtain ⟨hbackslash, hquote⟩ := not_or.mp hescaped
      rw [if_neg hescaped, List.append_assoc, List.cons_append, List.nil_append,
        readSfChars_plain hbackslash hquote h.1, ih h.2]
      rfl

theorem readSfString_serialize {s text : JsString} (h : serializeSfString s = .ok text)
    (rest : JsString) : readSfString (text ++ rest) = .ok (s, rest) := by
  obtain ⟨hprintable, rfl⟩ := serializeSfString_eq_ok.mp h
  rw [readSfString, if_neg (by simp), List.cons_append, List.drop_one, List.tail_cons,
    List.append_assoc, List.singleton_append]
  exact readSfChars_escape hprintable rest

theorem serializeSfString_inj {s s' text text' rest rest' : JsString}
    (h : serializeSfString s = .ok text) (h' : serializeSfString s' = .ok text')
    (heq : text ++ rest = text' ++ rest') : s = s' ∧ rest = rest' := by
  have hread := readSfString_serialize h rest
  rw [heq, readSfString_serialize h' rest'] at hread
  exact ⟨(Prod.mk.inj (Except.ok.inj hread)).1.symm, (Prod.mk.inj (Except.ok.inj hread)).2.symm⟩

/-! ## Identifiers -/

theorem serializeComponentId_eq_ok {c : ComponentId} {id : JsString} :
    serializeComponentId c = .ok id ↔ ∃ name paramName, serializeSfString c.name = .ok name ∧
      serializeName c.paramName = .ok paramName ∧ id = name ++ (paramName ++ serializeReq c.req) := by
  rw [serializeComponentId, bind_eq_ok]
  apply exists_congr
  intro name
  constructor
  · rintro ⟨hname, h⟩
    obtain ⟨paramName, hparam, h⟩ := bind_eq_ok.mp h
    exact ⟨paramName, hname, hparam, (Except.ok.inj h).symm⟩
  · rintro ⟨paramName, hname, hparam, rfl⟩
    exact ⟨hname, bind_eq_ok.mpr ⟨paramName, hparam, rfl⟩⟩

theorem serializeReq_inj {req req' : Bool} {rest rest' : JsString}
    (h : serializeReq req ++ colon :: rest = serializeReq req' ++ colon :: rest') :
    req = req' ∧ rest = rest' := by
  have hreq : serializeReq true = [0x3B, 0x72, 0x65, 0x71] := by decide
  have hnone : serializeReq false = [] := rfl
  cases req with
  | true =>
    cases req' with
    | true => exact ⟨rfl, (List.cons.inj (List.append_cancel_left h)).2⟩
    | false => simp [hreq, hnone, colon] at h
  | false =>
    cases req' with
    | true => simp [hreq, hnone, colon] at h
    | false => exact ⟨rfl, (List.cons.inj h).2⟩

theorem serializeReq_ne_name (req : Bool) (rest tail : JsString) :
    serializeReq req ++ colon :: rest ≠ js ";name=" ++ tail := by
  have hname : js ";name=" = [0x3B, 0x6E, 0x61, 0x6D, 0x65, 0x3D] := by decide
  have hreq : serializeReq true = [0x3B, 0x72, 0x65, 0x71] := by decide
  have hnone : serializeReq false = [] := rfl
  intro h
  cases req <;> simp [hreq, hnone, hname, colon] at h

theorem serializeName_inj {paramName paramName' : Option JsString} {text text' : JsString}
    {req req' : Bool} {rest rest' : JsString} (h : serializeName paramName = .ok text)
    (h' : serializeName paramName' = .ok text')
    (heq : text ++ (serializeReq req ++ colon :: rest) =
      text' ++ (serializeReq req' ++ colon :: rest')) :
    paramName = paramName' ∧
      serializeReq req ++ colon :: rest = serializeReq req' ++ colon :: rest' := by
  cases paramName with
  | none =>
    obtain rfl : [] = text := Except.ok.inj h
    cases paramName' with
    | none =>
      obtain rfl : [] = text' := Except.ok.inj h'
      exact ⟨rfl, heq⟩
    | some name' =>
      obtain ⟨quoted', -, rfl⟩ := map_eq_ok.mp h'
      rw [List.append_assoc] at heq
      exact absurd heq (serializeReq_ne_name _ _ _)
  | some name =>
    obtain ⟨quoted, hquoted, rfl⟩ := map_eq_ok.mp h
    cases paramName' with
    | none =>
      obtain rfl : [] = text' := Except.ok.inj h'
      rw [List.append_assoc] at heq
      exact absurd heq.symm (serializeReq_ne_name _ _ _)
    | some name' =>
      obtain ⟨quoted', hquoted', rfl⟩ := map_eq_ok.mp h'
      rw [List.append_assoc, List.append_assoc] at heq
      obtain ⟨rfl, hrest⟩ := serializeSfString_inj hquoted hquoted' (List.append_cancel_left heq)
      exact ⟨rfl, hrest⟩

theorem serializeComponentId_inj {c c' : ComponentId} {id id' rest rest' : JsString}
    (h : serializeComponentId c = .ok id) (h' : serializeComponentId c' = .ok id')
    (heq : id ++ colon :: rest = id' ++ colon :: rest') : c = c' ∧ rest = rest' := by
  obtain ⟨name, text, hname, htext, rfl⟩ := serializeComponentId_eq_ok.mp h
  obtain ⟨name', text', hname', htext', rfl⟩ := serializeComponentId_eq_ok.mp h'
  rw [List.append_assoc, List.append_assoc, List.append_assoc, List.append_assoc] at heq
  obtain ⟨hcname, heq⟩ := serializeSfString_inj hname hname' heq
  obtain ⟨hparam, heq⟩ := serializeName_inj htext htext' heq
  obtain ⟨hreq, hrest⟩ := serializeReq_inj heq
  refine ⟨?_, hrest⟩
  cases c
  cases c'
  simp_all

/-! ## Lines -/

theorem lineFeed_notMem_closing {params : JsString} (h : lineFeed ∉ params) :
    lineFeed ∉ js "\"@signature-params\": " ++ params := by
  intro hm
  rcases List.mem_append.mp hm with hm | hm
  · exact absurd hm (by decide)
  · exact h hm

variable [CaseMapping]

theorem componentLines_cons_eq_ok {msg : MessageContext} {seen : List JsString} {c : ComponentId}
    {components : List ComponentId} {lines : JsString} :
    componentLines msg seen (c :: components) = .ok lines ↔
      ∃ id value rest, serializeComponentId c = .ok id ∧ id ∉ seen ∧
        resolveComponentValue c msg = .ok value ∧ lineFeed ∉ value ∧ carriageReturn ∉ value ∧
        componentLines msg (id :: seen) components = .ok rest ∧
        lines = id ++ (colon :: space :: (value ++ lineFeed :: rest)) := by
  apply bind_eq_ok.trans
  constructor
  · rintro ⟨id, hid, h⟩
    obtain ⟨hseen, h⟩ := guard_eq_ok.mp h
    obtain ⟨value, hvalue, h⟩ := bind_eq_ok.mp h
    obtain ⟨hbreak, h⟩ := guard_eq_ok.mp h
    obtain ⟨rest, hrest, h⟩ := bind_eq_ok.mp h
    obtain ⟨hlf, hcr⟩ := not_or.mp hbreak
    exact ⟨id, value, rest, hid, hseen, hvalue, hlf, hcr, hrest, (Except.ok.inj h).symm⟩
  · rintro ⟨id, value, rest, hid, hseen, hvalue, hlf, hcr, hrest, rfl⟩
    refine ⟨id, hid, guard_eq_ok.mpr ⟨hseen, bind_eq_ok.mpr ⟨value, hvalue, ?_⟩⟩⟩
    exact guard_eq_ok.mpr ⟨not_or.mpr ⟨hlf, hcr⟩, bind_eq_ok.mpr ⟨rest, hrest, rfl⟩⟩

theorem componentLines_inj {msg msg' : MessageContext} {components components' : List ComponentId}
    {seen seen' : List JsString} {lines lines' last last' : JsString}
    (h : componentLines msg seen components = .ok lines)
    (h' : componentLines msg' seen' components' = .ok lines')
    (hlast : lineFeed ∉ last) (hlast' : lineFeed ∉ last') (heq : lines ++ last = lines' ++ last') :
    components = components' ∧ last = last' ∧ ∀ c ∈ components, ∃ value,
      resolveComponentValue c msg = .ok value ∧ resolveComponentValue c msg' = .ok value := by
  induction components generalizing components' seen seen' lines lines' with
  | nil =>
    obtain rfl : [] = lines := Except.ok.inj h
    cases components' with
    | nil =>
      obtain rfl : [] = lines' := Except.ok.inj h'
      exact ⟨rfl, heq, by simp⟩
    | cons c' components' =>
      -- a line feed ends the first line, and the closing line has none
      obtain ⟨id', value', rest', -, -, -, -, -, -, rfl⟩ := componentLines_cons_eq_ok.mp h'
      rw [List.nil_append] at heq
      exact absurd (by simp [heq]) hlast
  | cons c components ih =>
    obtain ⟨id, value, rest, hid, -, hvalue, hlf, -, hrest, rfl⟩ := componentLines_cons_eq_ok.mp h
    cases components' with
    | nil =>
      obtain rfl : [] = lines' := Except.ok.inj h'
      rw [List.nil_append] at heq
      exact absurd (by simp [← heq]) hlast'
    | cons c' components' =>
      obtain ⟨id', value', rest', hid', -, hvalue', hlf', -, hrest', rfl⟩ :=
        componentLines_cons_eq_ok.mp h'
      simp only [List.append_assoc, List.cons_append] at heq
      -- the identifier, then the value, then the lines that are left
      obtain ⟨rfl, htail⟩ := serializeComponentId_inj hid hid' heq
      obtain ⟨rfl, hlines⟩ := separator_inj hlf hlf' (List.cons.inj htail).2
      obtain ⟨rfl, hlast, hvalues⟩ := ih hrest hrest' hlines
      refine ⟨rfl, hlast, ?_⟩
      intro d hd
      rcases List.mem_cons.mp hd with rfl | hd
      · exact ⟨value, hvalue, hvalue'⟩
      · exact hvalues d hd

/-- **The signature base is unambiguous.** Where two bases are the same text, they cover the same
components in the same order, each with the same value in both messages, under the same parameters.
-/
theorem buildSignatureBase_injective {components components' : List ComponentId}
    {params params' : JsString} {msg msg' : MessageContext} {base : JsString}
    (hlf : lineFeed ∉ params) (hlf' : lineFeed ∉ params')
    (h : buildSignatureBase components params msg = .ok base)
    (h' : buildSignatureBase components' params' msg' = .ok base) :
    components = components' ∧ params = params' ∧
      ∀ c ∈ components, ∃ value, resolveComponentValue c msg = .ok value ∧
        resolveComponentValue c msg' = .ok value := by
  obtain ⟨lines, hlines, hbase⟩ := bind_eq_ok.mp h
  obtain ⟨lines', hlines', hbase'⟩ := bind_eq_ok.mp h'
  have heq : lines ++ (js "\"@signature-params\": " ++ params) =
      lines' ++ (js "\"@signature-params\": " ++ params') :=
    (Except.ok.inj hbase).trans (Except.ok.inj hbase').symm
  obtain ⟨hcomponents, hclosing, hvalues⟩ := componentLines_inj hlines hlines'
    (lineFeed_notMem_closing hlf) (lineFeed_notMem_closing hlf') heq
  exact ⟨hcomponents, List.append_cancel_left hclosing, hvalues⟩

omit [CaseMapping] in
theorem buildSignatureBase_injective_example :
    [ComponentId.mk (js "@method") none false,
        ComponentId.mk (js "@query-param") (some (js "q")) false] =
      [ComponentId.mk (js "@method") none false,
        ComponentId.mk (js "@query-param") (some (js "q")) false] ∧
      js "();keyid=\"a\"" = js "();keyid=\"a\"" ∧
      ∀ c ∈ [ComponentId.mk (js "@method") none false,
          ComponentId.mk (js "@query-param") (some (js "q")) false],
        ∃ value, @resolveComponentValue asciiCaseMapping c exampleMessage = .ok value ∧
          @resolveComponentValue asciiCaseMapping c exampleMessage = .ok value :=
  @buildSignatureBase_injective asciiCaseMapping _ _ _ _ exampleMessage exampleMessage
    (js "\"@method\": GET\n\"@query-param\";name=\"q\": 1\n\"@signature-params\": ();keyid=\"a\"")
    (by decide) (by decide) (by decide +kernel) (by decide +kernel)

end Daloy.Signatures
