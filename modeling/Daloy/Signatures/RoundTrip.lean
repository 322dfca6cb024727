import Daloy.Signatures.Unambiguous

/-! # What is signed is read back

* `parseInnerList_serialize`: the components, the parameters and the text of an inner list.
* `signMessage_parses`: what `signMessage` emits, `parseSignatureInput` and `parseSignature` read.

`Reads text update` says what the loop of `readParams` does with a text: it carries the parameters
through the serialized ones, one after the other.
-/

namespace Daloy.Signatures
set_option autoImplicit false

open Daloy.Unicode Daloy.Text Daloy.Fallible Daloy.Json

/-! ## Keys and numbers -/

def IsKey (s : JsString) : Prop := (s.head?.map isKeyStart).getD false ∧ ∀ u ∈ s, isKeyUnit u

instance (s : JsString) : Decidable (IsKey s) := inferInstanceAs (Decidable (_ ∧ _))

theorem readKey_append {key rest : JsString} (h : IsKey key)
    (hrest : ∀ u, rest.head? = some u → isKeyUnit u = false) :
    readKey (key ++ rest) = .ok (key, rest) := by
  obtain ⟨hstart, hall⟩ := h
  have hhead : (((key ++ rest).head?.map isKeyStart).getD false) = true := by
    cases key with
    | nil => simp at hstart
    | cons v key => exact hstart
  have htake : (key ++ rest).takeWhile isKeyUnit = key := by
    rw [List.takeWhile_append_of_pos hall]
    cases rest with
    | nil => simp
    | cons u rest => simp [hrest u rfl]
  have hdrop : (key ++ rest).dropWhile isKeyUnit = rest := by
    rw [List.dropWhile_append_of_pos hall]
    cases rest with
    | nil => rfl
    | cons u rest => simp [hrest u rfl]
  rw [readKey, if_pos hhead, htake, hdrop]

theorem dropWhile_key {key : JsString} (h : IsKey key) (rest : JsString) {p : UInt16 → Bool}
    (hp : ∀ u, isKeyStart u = true → p u = false) : (key ++ rest).dropWhile p = key ++ rest := by
  cases key with
  | nil => exact absurd h.1 (by simp)
  | cons u key =>
    rw [List.cons_append, List.dropWhile_cons_of_neg]
    have hstart : isKeyStart u = true := h.1
    simp [hp u hstart]

def maxSafeInteger : ℕ := 9007199254740991

theorem nearestDouble_eq_self {n : ℕ} (h : n ≤ maxSafeInteger) : nearestDouble n = n := by
  have hlog : Nat.log2 n - 52 = 0 := by
    by_cases hn : n = 0
    · rw [hn]
      rfl
    · have hlt : Nat.log2 n < 53 := by
        rw [Nat.log2_lt hn]
        exact Nat.lt_of_le_of_lt h (by decide)
      omega
  rw [nearestDouble, hlog]
  simp [Nat.mod_one]

theorem toNumber_eq_self {n : ℤ} (h : n.natAbs ≤ maxSafeInteger) : toNumber n = n := by
  rw [toNumber, nearestDouble_eq_self h]
  split <;> omega

/-! ## Parameters -/

def EndsParam (rest : JsString) : Prop :=
  ∀ u, rest.head? = some u → isKeyUnit u = false ∧ u ≠ equalsSign

theorem EndsParam.not_digit {rest : JsString} (h : EndsParam rest) (u : UInt16)
    (hu : rest.head? = some u) : isDigit u = false := by
  have hkey := (h u hu).1
  simp only [isKeyUnit, Bool.or_eq_false_iff] at hkey
  exact hkey.1.1.1.1.2

theorem endsParam_semicolon (rest : JsString) : EndsParam (semicolon :: rest) := by
  intro u hu
  obtain rfl : semicolon = u := Option.some.inj hu
  decide

/-- The loop of `readParams` reads the text, wherever it ends, and updates the parameters. -/
def Reads (text : JsString) (update : RawParams → RawParams) : Prop :=
  ∀ (rest : JsString), EndsParam rest → EndsParam (text ++ rest) ∧
    ∀ (fuel : ℕ) (params : RawParams), (text ++ rest).length ≤ fuel →
      ∃ fuel', rest.length ≤ fuel' ∧
        readParamsLoop fuel params (text ++ rest) = readParamsLoop fuel' (update params) rest

theorem reads_nil : Reads [] id := by
  intro rest hrest
  refine ⟨hrest, ?_⟩
  intro fuel params hfuel
  exact ⟨fuel, hfuel, rfl⟩

theorem Reads.append {text text' : JsString} {update update' : RawParams → RawParams}
    (h : Reads text update) (h' : Reads text' update') :
    Reads (text ++ text') (update' ∘ update) := by
  intro rest hrest
  obtain ⟨hrest', hread'⟩ := h' rest hrest
  obtain ⟨hends, hread⟩ := h (text' ++ rest) hrest'
  rw [List.append_assoc]
  refine ⟨hends, ?_⟩
  intro fuel params hfuel
  obtain ⟨fuel₁, hfuel₁, heq₁⟩ := hread fuel params hfuel
  obtain ⟨fuel₂, hfuel₂, heq₂⟩ := hread' fuel₁ (update params) hfuel₁
  exact ⟨fuel₂, hfuel₂, heq₁.trans heq₂⟩

theorem readKey_param {key : JsString} (hkey : IsKey key) (rest : JsString)
    (hrest : ∀ u, rest.head? = some u → isKeyUnit u = false) :
    readKey (((semicolon :: (key ++ rest)).drop 1).dropWhile (· = space)) = .ok (key, rest) := by
  rw [List.drop_one, List.tail_cons, dropWhile_key hkey]
  · exact readKey_append hkey hrest
  · intro u hu
    rw [decide_eq_false_iff_not]
    rintro rfl
    exact absurd hu (by decide)

theorem reads_param {key text : JsString} {value : ParamValue} (hkey : IsKey key)
    (hvalue : ∀ rest, EndsParam rest → readParamValue (text ++ rest) = .ok (value, rest)) :
    Reads (semicolon :: (key ++ equalsSign :: text)) (·.set key value) := by
  intro rest hrest
  refine ⟨endsParam_semicolon _, ?_⟩
  intro fuel params hfuel
  rw [List.cons_append, List.length_cons] at hfuel
  obtain ⟨fuel, rfl⟩ := Nat.exists_eq_add_of_le' (Nat.le_of_add_left_le hfuel)
  refine ⟨fuel, ?_, ?_⟩
  · simp only [List.length_append, List.length_cons] at hfuel
    omega
  have hread := readKey_param hkey (equalsSign :: (text ++ rest)) (by
    intro u hu
    obtain rfl : equalsSign = u := Option.some.inj hu
    decide)
  rw [List.cons_append, List.append_assoc, List.cons_append, readParamsLoop, if_neg (by simp),
    hread]
  simp only [bind, Except.bind, List.head?_cons, if_true, List.drop_one, List.tail_cons,
    hvalue rest hrest]

theorem reads_flag {key : JsString} (hkey : IsKey key) :
    Reads (semicolon :: key) (·.set key (.boolean true)) := by
  intro rest hrest
  refine ⟨endsParam_semicolon _, ?_⟩
  intro fuel params hfuel
  rw [List.cons_append, List.length_cons] at hfuel
  obtain ⟨fuel, rfl⟩ := Nat.exists_eq_add_of_le' (Nat.le_of_add_left_le hfuel)
  refine ⟨fuel, ?_, ?_⟩
  · simp only [List.length_append] at hfuel
    omega
  have hend : rest.head? ≠ some equalsSign := fun h => (hrest _ h).2 rfl
  rw [List.cons_append, readParamsLoop, if_neg (by simp),
    readKey_param hkey rest fun u hu => (hrest u hu).1]
  simp only [bind, Except.bind, hend, if_false]

def setParam (key : JsString) (value : Option ParamValue) (params : RawParams) : RawParams :=
  match value with
  | none => params
  | some value => params.set key value

theorem get?_setParam (key l : JsString) (value : Option ParamValue) (params : RawParams) :
    (setParam key value params).get? l =
      if l = key then value.or (params.get? l) else params.get? l := by
  cases value with
  | none => simp [setParam]
  | some value =>
    rw [setParam, JsMap.get?_set, Option.some_or]

theorem reads_serializeParam {α : Type} {key text : JsString} (hkey : IsKey key)
    {write : α → Except SignatureError JsString} {toValue : α → ParamValue} {value : Option α}
    (hvalue : ∀ a ∈ value, ∀ text, write a = .ok text → ∀ rest, EndsParam rest →
      readParamValue (text ++ rest) = .ok (toValue a, rest))
    (h : serializeParam key write value = .ok text) :
    Reads text (setParam key (value.map toValue)) := by
  cases value with
  | none =>
    obtain rfl : [] = text := Except.ok.inj h
    exact reads_nil
  | some a =>
    obtain ⟨written, hwritten, rfl⟩ := map_eq_ok.mp h
    exact reads_param hkey (hvalue a rfl written hwritten)

theorem readParamValue_string {s text : JsString} (h : serializeSfString s = .ok text)
    (rest : JsString) : readParamValue (text ++ rest) = .ok (.string s, rest) := by
  have hread := readSfString_serialize h rest
  obtain ⟨-, rfl⟩ := serializeSfString_eq_ok.mp h
  rw [readParamValue, hread, if_pos (by rw [List.cons_append, List.head?_cons])]
  rfl

theorem readParamValue_number {n : ℤ} {text : JsString} (h : serializeNumber n = .ok text)
    (hn : n.natAbs ≤ maxSafeInteger) {rest : JsString} (hrest : EndsParam rest) :
    readParamValue (text ++ rest) = .ok (.number n, rest) := by
  obtain rfl : integerText n = text := Except.ok.inj h
  -- a number starts with a digit or a minus sign
  obtain ⟨u, digits, hcons, hu⟩ : ∃ u digits, integerText n = u :: digits ∧
      (isDigit u = true ∨ u = minus) := by
    cases n with
    | ofNat n =>
      obtain ⟨u, digits, hwrite⟩ := List.exists_cons_of_ne_nil (NumberText.write_ne_nil n)
      exact ⟨u, digits, hwrite, .inl (write_digits n u (by rw [hwrite]; exact List.mem_cons_self ..))⟩
    | negSucc n => exact ⟨minus, _, rfl, .inr rfl⟩
  have hhead {v : UInt16} (hdigit : isDigit v = false) (hminus : v ≠ minus) :
      (integerText n ++ rest).head? ≠ some v := by
    rw [hcons]
    rintro heq
    obtain rfl : u = v := Option.some.inj heq
    exact hu.elim (by simp [hdigit]) hminus
  rw [readParamValue, if_neg (hhead (by decide) (by decide)), if_neg (hhead (by decide) (by decide)),
    readInteger_integerText n hrest.not_digit]
  dsimp only
  rw [toNumber_eq_self hn]

theorem readParamsLoop_end {fuel : ℕ} {params : RawParams} {rest : JsString}
    (h : rest.head? ≠ some semicolon) : readParamsLoop fuel params rest = .ok (params, rest) := by
  cases fuel with
  | zero => rfl
  | succ fuel => rw [readParamsLoop, if_pos h]

theorem Reads.readParams {text rest : JsString} {update : RawParams → RawParams}
    (h : Reads text update) (hends : EndsParam rest) (hrest : rest.head? ≠ some semicolon) :
    readParams (text ++ rest) = .ok (update ∅, rest) := by
  obtain ⟨-, hread⟩ := h rest hends
  obtain ⟨fuel, -, heq⟩ := hread _ ∅ (Nat.le_refl _)
  rw [Signatures.readParams, heq, readParamsLoop_end hrest]

/-! ## Components -/

theorem reads_serializeName {paramName : Option JsString} {text : JsString}
    (h : serializeName paramName = .ok text) :
    Reads text (setParam (js "name") (paramName.map .string)) := by
  cases paramName with
  | none =>
    obtain rfl : [] = text := Except.ok.inj h
    exact reads_nil
  | some paramName =>
    obtain ⟨quoted, hquoted, rfl⟩ := map_eq_ok.mp h
    have hkey : js ";name=" = semicolon :: (js "name" ++ [equalsSign]) := by decide
    rw [hkey, List.cons_append, List.append_assoc, List.singleton_append]
    exact reads_param (by decide) fun rest _ => readParamValue_string hquoted rest

theorem reads_serializeReq (req : Bool) :
    Reads (serializeReq req) (setParam (js "req") (if req then some (.boolean true) else none)) := by
  cases req with
  | false => exact reads_nil
  | true =>
    have hkey : serializeReq true = semicolon :: js "req" := by decide
    rw [hkey]
    exact reads_flag (by decide)

theorem componentOf_setParam (c : ComponentId) :
    componentOf c.name (setParam (js "req") (if c.req then some (.boolean true) else none)
      (setParam (js "name") (c.paramName.map .string) ∅)) = c := by
  obtain ⟨name, paramName, req⟩ := c
  have hname : js "name" ≠ js "req" := by decide
  simp only [componentOf, get?_setParam, if_neg hname, if_true, JsMap.get?_empty, if_neg hname.symm,
    Option.or_none, ComponentId.mk.injEq, true_and]
  constructor
  · cases paramName <;> rfl
  · cases req <;> simp

theorem endsParam_of_head {rest : JsString} {u : UInt16} (h : rest.head? = some u)
    (hu : u = space ∨ u = closeParen) : EndsParam rest ∧ rest.head? ≠ some semicolon := by
  rw [EndsParam, h]
  rcases hu with rfl | rfl
  · exact ⟨by rintro v ⟨⟩; decide, by decide⟩
  · exact ⟨by rintro v ⟨⟩; decide, by decide⟩

theorem readParams_serializeComponentId {c : ComponentId} {id rest : JsString} {u : UInt16}
    (h : serializeComponentId c = .ok id) (hrest : rest.head? = some u)
    (hu : u = space ∨ u = closeParen) :
    ∃ text params, readSfString (id ++ rest) = .ok (c.name, text) ∧
      readParams text = .ok (params, rest) ∧ componentOf c.name params = c := by
  obtain ⟨name, paramName, hname, hparam, rfl⟩ := serializeComponentId_eq_ok.mp h
  obtain ⟨hends, hsemicolon⟩ := endsParam_of_head hrest hu
  refine ⟨paramName ++ serializeReq c.req ++ rest, _, ?_, ?_, componentOf_setParam c⟩
  · rw [List.append_assoc]
    exact readSfString_serialize hname _
  · exact ((reads_serializeName hparam).append (reads_serializeReq c.req)).readParams hends
      hsemicolon

theorem head?_serializeComponentId {c : ComponentId} {id : JsString}
    (h : serializeComponentId c = .ok id) (rest : JsString) :
    (id ++ rest).head? = some quotationMark := by
  obtain ⟨name, paramName, hname, -, rfl⟩ := serializeComponentId_eq_ok.mp h
  obtain ⟨-, rfl⟩ := serializeSfString_eq_ok.mp hname
  rfl

theorem readComponents_end {fuel : ℕ} {rest : JsString} :
    readComponents fuel (closeParen :: rest) = .ok ([], closeParen :: rest) := by
  cases fuel with
  | zero => rfl
  | succ fuel => rw [readComponents, if_pos (.inr rfl)]

theorem readComponents_cons {c : ComponentId} {id rest : JsString} {u : UInt16}
    (h : serializeComponentId c = .ok id) (hrest : rest.head? = some u)
    (hu : u = space ∨ u = closeParen) (fuel : ℕ) :
    readComponents (fuel + 1) (id ++ rest) =
      (readComponents fuel (rest.dropWhile (· = space))).map fun r => (c :: r.1, r.2) := by
  obtain ⟨text, params, hname, hparams, hc⟩ := readParams_serializeComponentId h hrest hu
  have hhead := head?_serializeComponentId h rest
  have hspaces : (id ++ rest).dropWhile (· = space) = id ++ rest := by
    obtain ⟨tail, hcons⟩ := List.head?_eq_some_iff.mp hhead
    rw [hcons, List.dropWhile_cons_of_neg (by decide)]
  have hempty : ¬ ((id ++ rest).isEmpty = true ∨ (id ++ rest).head? = some closeParen) := by
    rintro (hempty | hclose)
    · rw [List.isEmpty_iff.mp hempty] at hhead
      exact absurd hhead (by simp)
    · rw [hhead] at hclose
      exact absurd hclose (by decide)
  rw [readComponents, if_neg hempty]
  dsimp only
  rw [hspaces, if_neg (not_or.mp hempty).2, hname]
  simp only [bind, Except.bind, hparams, hc]
  cases readComponents fuel (rest.dropWhile (· = space)) with
  | error e => rfl
  | ok r => rfl

theorem readComponents_serialize {components : List ComponentId} {ids : List JsString}
    (h : components.mapM serializeComponentId = .ok ids) {fuel : ℕ}
    (hfuel : ([space].intercalate ids).length ≤ fuel) (rest : JsString) :
    readComponents fuel ([space].intercalate ids ++ closeParen :: rest) =
      .ok (components, closeParen :: rest) := by
  induction components generalizing ids fuel with
  | nil =>
    obtain rfl : [] = ids := Except.ok.inj h
    exact readComponents_end
  | cons c components ih =>
    obtain ⟨id, ids, hid, hids, rfl⟩ := mapM_cons_eq_ok.mp h
    have hid₀ : 0 < id.length := by
      have hhead := head?_serializeComponentId hid []
      rw [List.append_nil] at hhead
      obtain ⟨tail, rfl⟩ := List.head?_eq_some_iff.mp hhead
      exact Nat.succ_pos _
    cases components with
    | nil =>
      obtain rfl : [] = ids := Except.ok.inj hids
      rw [List.intercalate_singleton] at hfuel ⊢
      obtain ⟨fuel, rfl⟩ := Nat.exists_eq_add_of_le' (hid₀.trans_le hfuel)
      rw [readComponents_cons hid rfl (.inr rfl), List.dropWhile_cons_of_neg (by decide),
        readComponents_end]
      rfl
    | cons d components =>
      obtain ⟨id', ids, hid', -, rfl⟩ := mapM_cons_eq_ok.mp hids
      have hcons : [space].intercalate (id :: id' :: ids) =
          id ++ space :: [space].intercalate (id' :: ids) := by
        simp [List.intercalate]
      obtain ⟨tail, htail⟩ : ∃ tail, [space].intercalate (id' :: ids) = id' ++ tail := by
        cases ids with
        | nil => exact ⟨[], by simp [List.intercalate]⟩
        | cons id'' ids =>
          exact ⟨space :: [space].intercalate (id'' :: ids), by simp [List.intercalate]⟩
      -- a quotation mark stands behind the space
      have hspaces : (space :: ([space].intercalate (id' :: ids) ++ closeParen :: rest)).dropWhile
          (· = space) = [space].intercalate (id' :: ids) ++ closeParen :: rest := by
        have hhead := head?_serializeComponentId hid' (tail ++ closeParen :: rest)
        rw [htail, List.append_assoc, List.dropWhile_cons_of_pos (by simp)]
        obtain ⟨units, hunits⟩ := List.head?_eq_some_iff.mp hhead
        rw [hunits, List.dropWhile_cons_of_neg (by decide)]
      rw [hcons, List.length_append, List.length_cons] at hfuel
      obtain ⟨fuel, rfl⟩ := Nat.exists_eq_add_of_le' ((Nat.le_add_right_of_le hid₀).trans hfuel)
      rw [hcons, List.append_assoc, List.cons_append, readComponents_cons hid rfl (.inl rfl),
        hspaces, ih hids (by omega)]
      rfl

/-! ## Inner lists -/

theorem serializeSignatureInput_eq_ok {components : List ComponentId} {params : SignatureParams}
    {text : JsString} (h : serializeSignatureInput components params = .ok text) :
    ∃ ids last, components.mapM serializeComponentId = .ok ids ∧
      text = openParen :: ([space].intercalate ids ++ closeParen :: last) ∧
      ∃ created expires keyid alg nonce tag,
        serializeParam (js "created") serializeNumber params.created = .ok created ∧
        serializeParam (js "expires") serializeNumber params.expires = .ok expires ∧
        serializeParam (js "keyid") serializeSfString params.keyid = .ok keyid ∧
        serializeParam (js "alg") serializeSfString params.alg = .ok alg ∧
        serializeParam (js "nonce") serializeSfString params.nonce = .ok nonce ∧
        serializeParam (js "tag") serializeSfString params.tag = .ok tag ∧
        last = created ++ (expires ++ (keyid ++ (alg ++ (nonce ++ tag)))) := by
  obtain ⟨ids, hids, h⟩ := bind_eq_ok.mp h
  obtain ⟨created, hcreated, h⟩ := bind_eq_ok.mp h
  obtain ⟨expires, hexpires, h⟩ := bind_eq_ok.mp h
  obtain ⟨keyid, hkeyid, h⟩ := bind_eq_ok.mp h
  obtain ⟨alg, halg, h⟩ := bind_eq_ok.mp h
  obtain ⟨nonce, hnonce, h⟩ := bind_eq_ok.mp h
  obtain ⟨tag, htag, h⟩ := bind_eq_ok.mp h
  exact ⟨ids, _, hids, (Except.ok.inj h).symm, created, expires, keyid, alg, nonce, tag, hcreated,
    hexpires, hkeyid, halg, hnonce, htag, rfl⟩

/-- The parameters as the loop of `readParams` collects them. -/
def rawParams (params : SignatureParams) : RawParams :=
  setParam (js "tag") (params.tag.map .string) <|
    setParam (js "nonce") (params.nonce.map .string) <|
      setParam (js "alg") (params.alg.map .string) <|
        setParam (js "keyid") (params.keyid.map .string) <|
          setParam (js "expires") (params.expires.map .number) <|
            setParam (js "created") (params.created.map .number) ∅

theorem toSignatureParams_rawParams (params : SignatureParams) :
    toSignatureParams (rawParams params) = params := by
  have hstring (value : Option JsString) :
      (value.map ParamValue.string).bind ParamValue.string? = value := by
    cases value <;> rfl
  have hnumber (value : Option ℤ) :
      (value.map ParamValue.number).bind ParamValue.number? = value := by
    cases value <;> rfl
  have hkeys : [js "created", js "expires", js "keyid", js "alg", js "nonce", js "tag"].Nodup := by
    decide
  have hsymm : [js "tag", js "nonce", js "alg", js "keyid", js "expires", js "created"].Nodup :=
    List.nodup_reverse.mpr hkeys
  simp only [List.nodup_cons, List.mem_cons, not_or, List.not_mem_nil] at hkeys hsymm
  obtain ⟨created, expires, keyid, alg, nonce, tag⟩ := params
  simp only [toSignatureParams, rawParams, get?_setParam]
  simp [hkeys, hsymm, hstring, hnumber]

theorem reads_params {components : List ComponentId} {params : SignatureParams} {text : JsString}
    (h : serializeSignatureInput components params = .ok text)
    (hcreated : ∀ n ∈ params.created, n.natAbs ≤ maxSafeInteger)
    (hexpires : ∀ n ∈ params.expires, n.natAbs ≤ maxSafeInteger) :
    ∃ ids last, components.mapM serializeComponentId = .ok ids ∧
      text = openParen :: ([space].intercalate ids ++ closeParen :: last) ∧
      ∃ update, Reads last update ∧ update ∅ = rawParams params := by
  obtain ⟨ids, _, hids, htext, created, expires, keyid, alg, nonce, tag, h₁, h₂, h₃, h₄, h₅, h₆,
    rfl⟩ := serializeSignatureInput_eq_ok h
  have hstring {key s : JsString} {value : Option JsString} (hkey : IsKey key)
      (h : serializeParam key serializeSfString value = .ok s) :
      Reads s (setParam key (value.map .string)) :=
    reads_serializeParam hkey (fun a _ text htext rest _ => readParamValue_string htext rest) h
  have hnumber {key s : JsString} {value : Option ℤ} (hkey : IsKey key)
      (hsafe : ∀ n ∈ value, n.natAbs ≤ maxSafeInteger)
      (h : serializeParam key serializeNumber value = .ok s) :
      Reads s (setParam key (value.map .number)) :=
    reads_serializeParam hkey
      (fun n hn text htext rest hrest => readParamValue_number htext (hsafe n hn) hrest) h
  refine ⟨ids, _, hids, htext, _, (hnumber (by decide) hcreated h₁).append <|
    (hnumber (by decide) hexpires h₂).append <| (hstring (by decide) h₃).append <|
      (hstring (by decide) h₄).append <|
        (hstring (by decide) h₅).append (hstring (by decide) h₆), ?_⟩
  rfl

/-! ## The text of a list -/

def EndsSolid (s : JsString) : Prop := ∀ u, s.getLast? = some u → isWhitespace u = false

theorem EndsSolid.append {s s' : JsString} (h : EndsSolid s) (h' : EndsSolid s') :
    EndsSolid (s ++ s') := by
  intro u hu
  rw [List.getLast?_append] at hu
  cases hlast : s'.getLast? with
  | none =>
    rw [hlast, Option.none_or] at hu
    exact h u hu
  | some v =>
    rw [hlast, Option.some_or] at hu
    obtain rfl : v = u := Option.some.inj hu
    exact h' v hlast

theorem endsSolid_concat (s : JsString) {u : UInt16} (h : isWhitespace u = false) :
    EndsSolid (s ++ [u]) := by
  intro v hv
  rw [List.getLast?_concat] at hv
  obtain rfl : u = v := Option.some.inj hv
  exact h

theorem endsSolid_serializeSfString {s text : JsString} (h : serializeSfString s = .ok text) :
    EndsSolid text := by
  obtain ⟨-, rfl⟩ := serializeSfString_eq_ok.mp h
  rw [← List.cons_append]
  exact endsSolid_concat _ (by decide)

theorem endsSolid_serializeNumber {n : ℤ} {text : JsString} (h : serializeNumber n = .ok text) :
    EndsSolid text := by
  obtain rfl : integerText n = text := Except.ok.inj h
  have hdigits (m : ℕ) : EndsSolid (NumberText.write m) := by
    intro u hu
    exact write_not_whitespace m u (List.mem_of_getLast? hu)
  cases n with
  | ofNat n => exact hdigits n
  | negSucc n => exact (endsSolid_concat [] (by decide)).append (hdigits (n + 1))

theorem endsSolid_serializeParam {α : Type} {key text : JsString}
    {write : α → Except SignatureError JsString} {value : Option α}
    (hwrite : ∀ {a : α} {text : JsString}, write a = .ok text → EndsSolid text)
    (h : serializeParam key write value = .ok text) : EndsSolid text := by
  cases value with
  | none =>
    obtain rfl : [] = text := Except.ok.inj h
    rintro u ⟨⟩
  | some a =>
    obtain ⟨written, hwritten, rfl⟩ := map_eq_ok.mp h
    have hsplit : semicolon :: (key ++ equalsSign :: written) =
        (semicolon :: key ++ [equalsSign]) ++ written := by simp
    rw [hsplit]
    exact (endsSolid_concat _ (by decide)).append (hwrite hwritten)

theorem trim_serializeSignatureInput {components : List ComponentId} {params : SignatureParams}
    {text : JsString} (h : serializeSignatureInput components params = .ok text) :
    trim text = text := by
  obtain ⟨ids, _, hids, rfl, created, expires, keyid, alg, nonce, tag, h₁, h₂, h₃, h₄, h₅, h₆,
    rfl⟩ := serializeSignatureInput_eq_ok h
  have hsolid : EndsSolid ((openParen :: [space].intercalate ids ++ [closeParen]) ++
      (created ++ (expires ++ (keyid ++ (alg ++ (nonce ++ tag)))))) :=
    (endsSolid_concat _ (by decide)).append <|
      (endsSolid_serializeParam endsSolid_serializeNumber h₁).append <|
        (endsSolid_serializeParam endsSolid_serializeNumber h₂).append <|
          (endsSolid_serializeParam endsSolid_serializeSfString h₃).append <|
            (endsSolid_serializeParam endsSolid_serializeSfString h₄).append <|
              (endsSolid_serializeParam endsSolid_serializeSfString h₅).append
                (endsSolid_serializeParam endsSolid_serializeSfString h₆)
  rw [List.cons_append, List.cons_append, List.append_assoc, List.singleton_append] at hsolid
  obtain ⟨u, hu⟩ := Option.ne_none_iff_exists'.mp (List.getLast?_eq_none_iff.not.mpr
    (List.cons_ne_nil openParen _))
  exact trim_eq_self rfl hu (by decide) (hsolid u hu)

theorem readPart_append (text rest : JsString) : readPart (text ++ rest) rest = text := by
  rw [readPart, List.length_append, Nat.add_sub_cancel, List.take_left]

theorem parseInnerList_serialize {components : List ComponentId} {params : SignatureParams}
    {text : JsString} (h : serializeSignatureInput components params = .ok text)
    (hcreated : ∀ n ∈ params.created, n.natAbs ≤ maxSafeInteger)
    (hexpires : ∀ n ∈ params.expires, n.natAbs ≤ maxSafeInteger) (rest : JsString)
    (hends : EndsParam rest) (hrest : rest.head? ≠ some semicolon) :
    parseInnerList (text ++ rest) = .ok (⟨components, params, text⟩, rest) := by
  obtain ⟨ids, last, hids, htext, update, hreads, hupdate⟩ := reads_params h hcreated hexpires
  have hraw : trim (readPart (text ++ rest) rest) = text := by
    rw [readPart_append, trim_serializeSignatureInput h]
  have hhead : (text ++ rest).head? = some openParen := by
    rw [htext]
    rfl
  have htail : (text ++ rest).drop 1 =
      [space].intercalate ids ++ closeParen :: (last ++ rest) := by
    simp [htext]
  have hlength : ([space].intercalate ids).length ≤ (text ++ rest).length := by
    simp only [htext, List.length_append, List.length_cons]
    omega
  rw [parseInnerList, if_neg (by rw [hhead]; simp), htail, readComponents_serialize hids hlength]
  simp only [bind, Except.bind, List.head?_cons, List.drop_one, List.tail_cons,
    hreads.readParams hends hrest, hupdate, toSignatureParams_rawParams, hraw]
  rfl

/-! ## Dictionaries -/

theorem readDictionary_end {α : Type} {readValue : JsString → Except SignatureError (α × JsString)}
    {fuel : ℕ} {out : JsMap JsString α} : readDictionary readValue fuel out [] = .ok out := by
  cases fuel with
  | zero => rfl
  | succ fuel => rfl

theorem readDictionary_single {α : Type}
    {readValue : JsString → Except SignatureError (α × JsString)} {label text : JsString} {value : α}
    (hlabel : IsKey label) (hvalue : readValue text = .ok (value, [])) (fuel : ℕ)
    (out : JsMap JsString α) :
    readDictionary readValue (fuel + 1) out (label ++ equalsSign :: text) =
      .ok (out.set label value) := by
  have hseparators := dropWhile_key hlabel (equalsSign :: text) (p := isSeparator) (by
    intro u hu
    simp only [isSeparator, Bool.or_eq_false_iff, beq_eq_false_iff_ne]
    refine ⟨⟨?_, ?_⟩, ?_⟩
    all_goals
      rintro rfl
      exact absurd hu (by decide))
  have hkey : readKey (label ++ equalsSign :: text) = .ok (label, equalsSign :: text) := by
    apply readKey_append hlabel
    intro u hu
    obtain rfl : equalsSign = u := Option.some.inj hu
    decide
  rw [readDictionary]
  dsimp only
  rw [hseparators, if_neg (by simp), hkey]
  simp only [bind, Except.bind, List.head?_cons, List.drop_one, List.tail_cons, hvalue]
  exact readDictionary_end

theorem encodeBase64_ne_colon (bytes : List UInt8) : ∀ u ∈ encodeBase64 bytes, u ≠ colon := by
  have hsextets : ∀ n : Fin 64, sextetUnit n ≠ colon := by decide
  intro u hu
  rcases List.mem_append.mp hu with hu | hu
  · obtain ⟨n, hn, rfl⟩ := List.mem_map.mp hu
    exact hsextets ⟨n, sextets_lt hn⟩
  · obtain rfl := List.eq_of_mem_replicate hu
    decide

theorem readByteSequence_encode (bytes : List UInt8) (rest : JsString) :
    readByteSequence (colon :: (encodeBase64 bytes ++ colon :: rest)) = .ok (bytes, rest) := by
  have hpos : ∀ u ∈ encodeBase64 bytes, decide (u ≠ colon) = true := by
    intro u hu
    exact decide_eq_true (encodeBase64_ne_colon bytes u hu)
  have htake : (encodeBase64 bytes ++ colon :: rest).takeWhile (· ≠ colon) = encodeBase64 bytes := by
    rw [List.takeWhile_append_of_pos hpos, List.takeWhile_cons_of_neg (by decide), List.append_nil]
  have hdrop : (encodeBase64 bytes ++ colon :: rest).dropWhile (· ≠ colon) = colon :: rest := by
    rw [List.dropWhile_append_of_pos hpos, List.dropWhile_cons_of_neg (by decide)]
  rw [readByteSequence, if_neg (by simp)]
  simp only [List.drop_one, List.tail_cons, htake, hdrop, decodeBase64_encode]

/-! ## Signing -/

variable [CaseMapping]

theorem signMessage_eq_ok {sign : List UInt8 → Except SignatureError (List UInt8)}
    {opts : SignMessageOptions} {now : ℤ} {sig : MessageSignature}
    (h : signMessage sign opts now = .ok sig) :
    ∃ components value bytes, opts.componentIds = .ok components ∧
      serializeSignatureInput components (opts.params now) = .ok value ∧
      buildSignatureBase components value opts.message = .ok sig.signatureBase ∧
      sign (encodeText sig.signatureBase) = .ok bytes ∧
      sig.label = opts.label.getD defaultSignatureLabel ∧
      sig.signatureInput = sig.label ++ equalsSign :: value ∧
      sig.signature = sig.label ++ equalsSign :: colon :: (encodeBase64 bytes ++ [colon]) := by
  obtain ⟨components, hcomponents, h⟩ := bind_eq_ok.mp h
  obtain ⟨value, hvalue, h⟩ := bind_eq_ok.mp h
  obtain ⟨base, hbase, h⟩ := bind_eq_ok.mp h
  obtain ⟨bytes, hbytes, h⟩ := bind_eq_ok.mp h
  obtain rfl := Except.ok.inj h
  exact ⟨components, value, bytes, hcomponents, hvalue, hbase, hbytes, rfl, rfl, rfl⟩

/-- **What is signed is read back.** For a label of the key grammar and times in the range of the
safe integers, the two headers hold one member each: the components and the parameters that were
given, under the very text that was signed, and the bytes of the signature. So the same message has
the same base again. -/
theorem signMessage_parses {sign : List UInt8 → Except SignatureError (List UInt8)}
    {opts : SignMessageOptions} {now : ℤ} {sig : MessageSignature}
    (hlabel : IsKey (opts.label.getD defaultSignatureLabel))
    (hcreated : ∀ n ∈ (opts.params now).created, n.natAbs ≤ maxSafeInteger)
    (hexpires : ∀ n ∈ (opts.params now).expires, n.natAbs ≤ maxSafeInteger)
    (h : signMessage sign opts now = .ok sig) :
    ∃ components value bytes, opts.componentIds = .ok components ∧
      serializeSignatureInput components (opts.params now) = .ok value ∧
      sign (encodeText sig.signatureBase) = .ok bytes ∧
      sig.label = opts.label.getD defaultSignatureLabel ∧
      parseSignatureInput sig.signatureInput =
        .ok (JsMap.empty.set sig.label ⟨components, opts.params now, value⟩) ∧
      parseSignature sig.signature = .ok (JsMap.empty.set sig.label bytes) ∧
      buildSignatureBase components value opts.message = .ok sig.signatureBase := by
  obtain ⟨components, value, bytes, hcomponents, hvalue, hbase, hbytes, hlabel', hinput, hsignature⟩ :=
    signMessage_eq_ok h
  refine ⟨components, value, bytes, hcomponents, hvalue, hbytes, hlabel', ?_, ?_, hbase⟩
  · have hlist := parseInnerList_serialize hvalue hcreated hexpires [] (by rintro u ⟨⟩)
      (by simp)
    rw [List.append_nil] at hlist
    rw [parseSignatureInput, hinput]
    exact readDictionary_single (hlabel' ▸ hlabel) hlist _ _
  · rw [parseSignature, hsignature]
    exact readDictionary_single (hlabel' ▸ hlabel) (readByteSequence_encode bytes []) _ _

/-- A message signed for two components, under a key whose name holds a quotation mark. -/
def exampleOptions : SignMessageOptions where
  message := exampleMessage
  components := some [js "@method", js "\"@query-param\";name=\"q\""]
  alg := js "hmac-sha256"
  keyid := some (js "key \"1\"")
  label := some (js "sig-a")
  created := some 1700000000

def exampleSignature : MessageSignature where
  signatureInput := js ("sig-a=(\"@method\" \"@query-param\";name=\"q\");created=1700000000" ++
    ";keyid=\"key \\\"1\\\"\";alg=\"hmac-sha256\"")
  signature := js "sig-a=:mQ==:"
  signatureBase := js ("\"@method\": GET\n\"@query-param\";name=\"q\": 1\n" ++
    "\"@signature-params\": (\"@method\" \"@query-param\";name=\"q\");created=1700000000" ++
    ";keyid=\"key \\\"1\\\"\";alg=\"hmac-sha256\"")
  label := js "sig-a"

omit [CaseMapping] in
theorem signMessage_parses_example :
    ∃ components value bytes, exampleOptions.componentIds = .ok components ∧
      serializeSignatureInput components (exampleOptions.params 0) = .ok value ∧
      .ok [UInt8.ofNat (encodeText exampleSignature.signatureBase).length] =
        (.ok bytes : Except SignatureError (List UInt8)) ∧
      exampleSignature.label = exampleOptions.label.getD defaultSignatureLabel ∧
      parseSignatureInput exampleSignature.signatureInput =
        .ok (JsMap.empty.set exampleSignature.label ⟨components, exampleOptions.params 0, value⟩) ∧
      parseSignature exampleSignature.signature =
        .ok (JsMap.empty.set exampleSignature.label bytes) ∧
      @buildSignatureBase asciiCaseMapping components value exampleOptions.message =
        .ok exampleSignature.signatureBase :=
  @signMessage_parses asciiCaseMapping (fun bytes => .ok [UInt8.ofNat bytes.length]) exampleOptions
    0 exampleSignature (by decide) (by decide) (by decide) (by decide +kernel)

end Daloy.Signatures
