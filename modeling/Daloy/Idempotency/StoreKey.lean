import Daloy.Http.Headers

/-! # The store key of an idempotent request

The first half of `beforeHandle` and `defaultScope` of `src/idempotency.ts`, with `markAuthIdentity`
of `src/internal-replay.ts`. The digest is a function of any values.

* `storeKey`: the key under which a request is reserved, `none` where the middleware lets it pass.
-/

namespace Daloy.Idempotency
set_option autoImplicit false

open Daloy.Unicode Daloy.Text Daloy.Fallible Daloy.Http

/-- `IdempotencyOptions`, as far as the store key depends on them, without a custom scope. -/
structure KeyOptions where
  headerName : JsString := js "idempotency-key"
  requireKey : Bool := false
  maxKeyLength : ℕ := 255
  groupId : Option JsString := none
  allowUnscopedCallers : Bool := false

/-- What is read of a request. `recorded` are the identities that auth hooks recorded, in order. -/
structure CallerRequest where
  key : Option HeaderValue
  authorization : Option HeaderValue := none
  hasCookie : Bool := false
  tenant : Option JsString := none
  recorded : List JsString := []

inductive KeyError
  | badRequest (detail : JsString)
  | error (message : JsString)
  deriving DecidableEq

/-! ## The caller -/

/-- `markAuthIdentity(state, identity)`, given what the state holds. -/
def markAuthIdentity (existing : Option JsString) (identity : JsString) : Option JsString :=
  match existing with
  | some existing =>
    if existing ≠ identity then some (existing ++ 0x0A :: identity) else some identity
  | none => some identity

def CallerRequest.authIdentity (req : CallerRequest) : Option JsString :=
  req.recorded.foldl markAuthIdentity none

/-- `headers.get("authorization") || undefined`. -/
def CallerRequest.authorizationValue (req : CallerRequest) : Option JsString :=
  (req.authorization.map HeaderValue.units).filter (· ≠ [])

def defaultScope (req : CallerRequest) : Option JsString :=
  match req.authIdentity with
  | none => req.authorizationValue
  | some identity =>
    match req.authorizationValue with
    | none => some (js "id:" ++ identity)
    | some authorization => some (authorization ++ 0x0A :: (js "id:" ++ identity))

def CallerRequest.resolvedTenant (req : CallerRequest) : Option JsString :=
  req.tenant.filter (· ≠ [])

/-! ## The key -/

def hexDigit (n : ℕ) : UInt16 := UInt16.ofNat (if n < 10 then 0x30 + n else 0x61 + (n - 10))

def bytesToHex (bytes : List UInt8) : JsString :=
  bytes.flatMap fun b => [hexDigit (b.toNat / 16), hexDigit (b.toNat % 16)]

def sha256Hex (digest : List UInt8 → List UInt8) (input : JsString) : JsString :=
  bytesToHex (digest (encodeText input))

/-- `/^[\x21-\x7e]+$/`. -/
def matchesKeyPattern (key : JsString) : Bool :=
  !key.isEmpty && key.all fun u => 0x21 ≤ u.toNat && u.toNat ≤ 0x7E

def validateKey (key headerName : JsString) (maxLen : ℕ) : Except KeyError Unit := do
  if key.length = 0 then
    .error (.badRequest (headerName ++ js " header must not be empty."))
  if maxLen < key.length then
    .error (.badRequest (headerName ++ js " header must be at most " ++
      Json.NumberText.write maxLen ++ js " characters."))
  if matchesKeyPattern key = false then
    .error (.badRequest (headerName ++ js " header contains invalid characters."))

def unscopedCaller : KeyError := .error (js
  ("idempotency(): cannot determine the calling principal for a cookie-bearing request. " ++
    "The default scope reads the Authorization header, which this request does not carry with " ++
    "a non-empty value, so every cookie-authenticated caller would share one idempotency " ++
    "namespace and could replay another caller's stored response (CWE-524). Pass " ++
    "`scope: (ctx) => ctx.state.session?.id` (or another stable per-caller id), or set " ++
    "`allowUnscopedCallers: true` if these callers are genuinely interchangeable."))

def KeyOptions.keyPrefix (opts : KeyOptions) : JsString :=
  match opts.groupId with
  | some groupId => if groupId = [] then [] else groupId ++ js ":"
  | none => []

def fieldHex (digest : List UInt8 → List UInt8) (field : Option JsString) : JsString :=
  match field with
  | some value => if value = [] then [] else sha256Hex digest value
  | none => []

/-- The key under which a request with the client key `key` is reserved. -/
def namespacedKey (digest : List UInt8 → List UInt8) (opts : KeyOptions) (req : CallerRequest)
    (key : JsString) : JsString :=
  opts.keyPrefix ++ (js "t=" ++ (fieldHex digest (req.resolvedTenant.map (js "tenant:" ++ ·)) ++
    (js "|s=" ++ (fieldHex digest (defaultScope req) ++ (js "|k=" ++ key)))))

/-- `beforeHandle` up to the reservation, for a request to which the middleware applies. -/
def storeKey (digest : List UInt8 → List UInt8) (opts : KeyOptions) (req : CallerRequest) :
    Except KeyError (Option JsString) :=
  match (req.key.map fun v => trim v.units).filter (· ≠ []) with
  | none =>
    if opts.requireKey then
      .error (.badRequest (js "Missing required " ++ opts.headerName ++ js " header."))
    else .ok none
  | some key => do
    validateKey key opts.headerName opts.maxKeyLength
    if defaultScope req = none ∧ opts.allowUnscopedCallers = false ∧ req.hasCookie = true then
      .error unscopedCaller
    return some (namespacedKey digest opts req key)

/-! ## Fields are read back -/

theorem hexDigit_inj {m n : ℕ} (hm : m < 16) (hn : n < 16) (h : hexDigit m = hexDigit n) : m = n := by
  have : ∀ a b : Fin 16, hexDigit a = hexDigit b → a = b := by decide
  exact congrArg Fin.val (this ⟨m, hm⟩ ⟨n, hn⟩ h)

theorem bytesToHex_inj {bytes bytes' : List UInt8} (h : bytesToHex bytes = bytesToHex bytes') :
    bytes = bytes' := by
  induction bytes generalizing bytes' with
  | nil =>
    cases bytes' with
    | nil => rfl
    | cons b bytes' => simp [bytesToHex] at h
  | cons a bytes ih =>
    cases bytes' with
    | nil => simp [bytesToHex] at h
    | cons b bytes' =>
      simp only [bytesToHex, List.flatMap_cons, List.cons_append, List.nil_append,
        List.cons.injEq] at h
      obtain ⟨hhigh, hlow, hrest⟩ := h
      have ha := a.toNat_lt
      have hb := b.toNat_lt
      have hdiv := hexDigit_inj (by omega) (by omega) hhigh
      have hmod := hexDigit_inj (by omega) (by omega) hlow
      have hbyte : a = b := UInt8.toNat.inj (by omega)
      rw [hbyte, ih hrest]

theorem bar_notMem_bytesToHex (bytes : List UInt8) : 0x7C ∉ bytesToHex bytes := by
  have hdigit : ∀ n : Fin 16, hexDigit n ≠ 0x7C := by decide
  intro hm
  obtain ⟨b, -, hb⟩ := List.mem_flatMap.mp hm
  have hlt := b.toNat_lt
  simp only [List.mem_cons, List.not_mem_nil, or_false] at hb
  rcases hb with hb | hb
  · exact hdigit ⟨b.toNat / 16, by omega⟩ hb.symm
  · exact hdigit ⟨b.toNat % 16, by omega⟩ hb.symm

variable {digest : List UInt8 → List UInt8}

theorem bar_notMem_fieldHex (field : Option JsString) : 0x7C ∉ fieldHex digest field := by
  rw [fieldHex.eq_def]
  split
  · split
    · exact List.not_mem_nil
    · exact bar_notMem_bytesToHex _
  · exact List.not_mem_nil

def Agree (a b : Option JsString) : Prop := a.map scalars = b.map scalars

theorem fieldHex_eq_iff (hinj : Function.Injective digest) (hlength : ∀ bytes, digest bytes ≠ [])
    {a b : Option JsString} (ha : a ≠ some []) (hb : b ≠ some []) :
    fieldHex digest a = fieldHex digest b ↔ Agree a b := by
  have hsome {v : JsString} (hv : v ≠ []) : fieldHex digest (some v) = sha256Hex digest v := by
    show (if v = [] then [] else sha256Hex digest v) = _
    rw [if_neg hv]
  have hne (v : JsString) : sha256Hex digest v ≠ [] := by
    intro h
    have hnil : bytesToHex (digest (encodeText v)) = bytesToHex [] := h
    exact hlength _ (bytesToHex_inj hnil)
  cases a with
  | none =>
    cases b with
    | none => simp [Agree]
    | some w =>
      have hw : w ≠ [] := fun h => hb (by rw [h])
      rw [hsome hw]
      simpa [Agree, fieldHex] using (hne w).symm
  | some v =>
    have hv : v ≠ [] := fun h => ha (by rw [h])
    rw [hsome hv]
    cases b with
    | none => simpa [Agree, fieldHex] using hne v
    | some w =>
      have hw : w ≠ [] := fun h => hb (by rw [h])
      rw [hsome hw, Agree, Option.map_some, Option.map_some, Option.some_inj, ← encodeText_inj]
      constructor
      · intro h
        exact hinj (bytesToHex_inj h)
      · intro h
        rw [sha256Hex, h, sha256Hex]

theorem defaultScope_ne_empty (req : CallerRequest) : defaultScope req ≠ some [] := by
  have hvalue : req.authorizationValue ≠ some [] := by
    intro h
    exact absurd (Option.filter_eq_some_iff.mp h).2 (by simp)
  rw [defaultScope]
  split
  · exact hvalue
  · have hid (v : JsString) : js "id:" ++ v ≠ [] := by
      have : js "id:" = [0x69, 0x64, 0x3A] := by decide
      simp [this]
    split
    · simpa using hid _
    · simp

theorem namespacedKey_eq_iff (hinj : Function.Injective digest)
    (hlength : ∀ bytes, digest bytes ≠ []) (opts : KeyOptions) (p q : CallerRequest)
    (key key' : JsString) :
    namespacedKey digest opts p key = namespacedKey digest opts q key' ↔
      key = key' ∧ Agree p.resolvedTenant q.resolvedTenant ∧
        Agree (defaultScope p) (defaultScope q) := by
  have hbar : js "|s=" = 0x7C :: js "s=" := by decide
  have hbar' : js "|k=" = 0x7C :: js "k=" := by decide
  have htag : ∀ u ∈ js "tenant:", IsPlain u := by decide
  have htenant : Agree (p.resolvedTenant.map (js "tenant:" ++ ·))
      (q.resolvedTenant.map (js "tenant:" ++ ·)) ↔ Agree p.resolvedTenant q.resolvedTenant := by
    cases p.resolvedTenant <;> cases q.resolvedTenant <;>
      simp [Agree, scalars_append htag]
  have hne (tenant : Option JsString) : tenant.map (js "tenant:" ++ ·) ≠ some [] := by
    have : js "tenant:" ≠ [] := by decide
    cases tenant <;> simp [this]
  rw [← htenant, ← fieldHex_eq_iff hinj hlength (hne _) (hne _),
    ← fieldHex_eq_iff hinj hlength (defaultScope_ne_empty p) (defaultScope_ne_empty q)]
  simp only [namespacedKey, hbar, hbar', List.cons_append]
  constructor
  · intro h
    obtain ⟨htenantHex, hrest⟩ := separator_inj (bar_notMem_fieldHex _) (bar_notMem_fieldHex _)
      (List.append_cancel_left (List.append_cancel_left h))
    obtain ⟨hscopeHex, hrest⟩ := separator_inj (bar_notMem_fieldHex _) (bar_notMem_fieldHex _)
      (List.append_cancel_left hrest)
    exact ⟨List.append_cancel_left hrest, htenantHex, hscopeHex⟩
  · rintro ⟨hkey, htenantHex, hscopeHex⟩
    rw [hkey, htenantHex, hscopeHex]

/-! ## Which callers share a scope -/

/-- What a recorded identity adds to an `Authorization` value. -/
def identitySuffix : Option JsString → JsString
  | none => []
  | some identity => 0x0A :: (js "id:" ++ identity)

/-- The `Authorization` value of `q` spells the scope of `p`, which is known by its recorded
identity alone. -/
def Forges (q p : CallerRequest) : Prop :=
  p.authorizationValue = none ∧ ∃ identity l, p.authIdentity = some identity ∧
    q.authorizationValue = some (js "id:" ++ l) ∧
    scalars identity = scalars (l ++ identitySuffix q.authIdentity)

theorem defaultScope_of_authorization {req : CallerRequest} {authorization : JsString}
    (h : req.authorizationValue = some authorization) :
    defaultScope req = some (authorization ++ identitySuffix req.authIdentity) := by
  rw [defaultScope]
  split
  · next hidentity => rw [h, hidentity, identitySuffix, List.append_nil]
  · next identity hidentity => rw [h, hidentity, identitySuffix]

theorem defaultScope_of_identity {req : CallerRequest} (h : req.authorizationValue = none) :
    defaultScope req = req.authIdentity.map (js "id:" ++ ·) := by
  rw [defaultScope]
  split
  · next hidentity => rw [h, hidentity, Option.map_none]
  · next identity hidentity => rw [h, hidentity, Option.map_some]

theorem authorizationValue_plain {req : CallerRequest} {authorization : JsString}
    (h : req.authorizationValue = some authorization) :
    (∀ u ∈ authorization, IsPlain u) ∧ 0x0A ∉ authorization := by
  obtain ⟨hmap, -⟩ := Option.filter_eq_some_iff.mp h
  obtain ⟨value, -, rfl⟩ := Option.map_eq_some_iff.mp hmap
  constructor
  · intro u hu
    have hlt := (value.valid u hu).1
    simp only [IsPlain, isHighSurrogate, isLowSurrogate, Bool.and_eq_false_iff,
      decide_eq_false_iff_not]
    omega
  · intro hu
    exact (value.valid _ hu).2.2.1 rfl

theorem scalars_plain_cons {u : UInt16} (h : IsPlain u) (s : JsString) :
    scalars (u :: s) = Char.ofNat u.toNat :: scalars s := scalars_unit u s h.1 h.2

theorem unit_of_char {u v : UInt16} (hu : IsPlain u) (hv : IsPlain v)
    (h : Char.ofNat u.toNat = Char.ofNat v.toNat) : u = v := by
  have hlist : scalars [u] = scalars [v] := by
    rw [scalars_plain_cons hu, scalars_plain_cons hv, h]
  have := scalars_plain_inj (a := [u]) (b := [v]) (by simpa using hu) (by simpa using hv) hlist
  exact (List.cons.inj this).1

theorem scalars_identitySuffix_ne {u : UInt16} (hu : IsPlain u) (hlf : u ≠ 0x0A) (s : JsString)
    (identity : Option JsString) : scalars (u :: s) ≠ scalars (identitySuffix identity) := by
  rw [scalars_plain_cons hu]
  cases identity with
  | none => simp [identitySuffix, scalars]
  | some identity =>
    have hplain : IsPlain 0x0A := by decide
    rw [identitySuffix, scalars_plain_cons hplain]
    intro h
    exact hlf (unit_of_char hu hplain (List.cons.inj h).1)

theorem scalars_identitySuffix_inj {i j : Option JsString} :
    scalars (identitySuffix i) = scalars (identitySuffix j) ↔ Agree i j := by
  have hlf : IsPlain 0x0A := by decide
  have hid : ∀ u ∈ js "id:", IsPlain u := by decide
  cases i <;> cases j <;>
    simp [identitySuffix, Agree, scalars_plain_cons hlf, scalars_append hid, scalars]

theorem scalars_suffix_split {t b : JsString} (ht : ∀ u ∈ t, IsPlain u) (hlf : 0x0A ∉ t)
    (hb : ∀ u ∈ b, IsPlain u) {rest : JsString} {identity : Option JsString}
    (h : scalars (t ++ rest) = scalars (b ++ identitySuffix identity)) :
    ∃ l, b = t ++ l ∧ scalars rest = scalars (l ++ identitySuffix identity) := by
  induction t generalizing b with
  | nil => exact ⟨b, rfl, h⟩
  | cons u t ih =>
    have hu := ht u (List.mem_cons_self ..)
    cases b with
    | nil => exact absurd h (scalars_identitySuffix_ne hu (fun hm => hlf (by simp [hm])) _ _)
    | cons v b =>
      have hv := hb v (List.mem_cons_self ..)
      rw [List.cons_append, List.cons_append, scalars_plain_cons hu, scalars_plain_cons hv] at h
      obtain ⟨hchar, hrest⟩ := List.cons.inj h
      obtain ⟨l, rfl, hl⟩ := ih (fun w hw => ht w (List.mem_cons_of_mem _ hw))
        (fun hm => hlf (List.mem_cons_of_mem _ hm)) (fun w hw => hb w (List.mem_cons_of_mem _ hw))
        hrest
      exact ⟨l, by rw [unit_of_char hu hv hchar, List.cons_append], hl⟩

theorem agree_comm {a b : Option JsString} : Agree a b ↔ Agree b a := eq_comm

/-- A caller with an `Authorization` value and one without share a scope where it is forged. -/
theorem agree_defaultScope_of_none {p q : CallerRequest} (hp : p.authorizationValue = none)
    {b : JsString} (hq : q.authorizationValue = some b) :
    Agree (defaultScope p) (defaultScope q) ↔ Forges q p := by
  have hid : ∀ u ∈ js "id:", IsPlain u := by decide
  rw [defaultScope_of_identity hp, defaultScope_of_authorization hq, Agree]
  constructor
  · intro h
    obtain ⟨identity, hidentity⟩ : ∃ identity, p.authIdentity = some identity := by
      cases hidentity : p.authIdentity with
      | none => simp [hidentity] at h
      | some identity => exact ⟨identity, rfl⟩
    rw [hidentity] at h
    obtain ⟨l, rfl, hl⟩ := scalars_suffix_split hid (by decide) (authorizationValue_plain hq).1
      (Option.some.inj h)
    exact ⟨hp, identity, l, hidentity, hq, hl⟩
  · rintro ⟨-, identity, l, hidentity, hauthorization, hl⟩
    obtain rfl := Option.some.inj (hq.symm.trans hauthorization)
    rw [hidentity, Option.map_some, Option.map_some, Option.map_some, List.append_assoc,
      scalars_append hid, scalars_append hid, hl]

theorem agree_defaultScope_iff (p q : CallerRequest) :
    Agree (defaultScope p) (defaultScope q) ↔
      p.authorizationValue = q.authorizationValue ∧ Agree p.authIdentity q.authIdentity ∨
        Forges p q ∨ Forges q p := by
  have hid : ∀ u ∈ js "id:", IsPlain u := by decide
  cases hp : p.authorizationValue with
  | none =>
    cases hq : q.authorizationValue with
    | none =>
      have hforges {p q : CallerRequest} (h : q.authorizationValue = none) : ¬ Forges q p := by
        rintro ⟨-, _, _, -, hsome, -⟩
        rw [h] at hsome
        simp at hsome
      rw [defaultScope_of_identity hp, defaultScope_of_identity hq]
      simp only [hforges hp, hforges hq, or_false, true_and]
      cases p.authIdentity <;> cases q.authIdentity <;> simp [Agree, scalars_append hid]
    | some b =>
      have hnot : ¬ Forges p q := fun h => by
        rw [h.1] at hq
        simp at hq
      rw [agree_defaultScope_of_none hp hq]
      simp [hnot]
  | some a =>
    cases hq : q.authorizationValue with
    | none =>
      have hnot : ¬ Forges q p := fun h => by
        rw [h.1] at hp
        simp at hp
      rw [agree_comm, agree_defaultScope_of_none hq hp]
      simp [hnot]
    | some b =>
      have hnot : ¬ Forges p q := fun h => by
        rw [h.1] at hq
        simp at hq
      have hnot' : ¬ Forges q p := fun h => by
        rw [h.1] at hp
        simp at hp
      obtain ⟨hplain, hlf⟩ := authorizationValue_plain hp
      obtain ⟨hplain', hlf'⟩ := authorizationValue_plain hq
      rw [defaultScope_of_authorization hp, defaultScope_of_authorization hq, Agree]
      simp only [hnot, hnot', or_false, Option.map_some, Option.some_inj]
      constructor
      · intro h
        obtain ⟨l, rfl, hl⟩ := scalars_suffix_split hplain hlf hplain' h
        cases l with
        | nil => exact ⟨(List.append_nil _).symm, scalars_identitySuffix_inj.mp hl⟩
        | cons u l =>
          exact absurd hl.symm (scalars_identitySuffix_ne (hplain' u (by simp))
            (fun hu => hlf' (by simp [hu])) _ _)
      · rintro ⟨rfl, hidentity⟩
        rw [scalars_append hplain, scalars_append hplain, scalars_identitySuffix_inj.mpr hidentity]

/-! ## Which callers share a key -/

def CallerRequest.clientKey (req : CallerRequest) : Option JsString :=
  req.key.map fun v => trim v.units

/-- What a store key stands for. -/
structure Principal where
  tenant : Option JsString
  authorization : Option JsString
  identity : Option JsString
  clientKey : Option JsString
  deriving DecidableEq

def CallerRequest.principal (req : CallerRequest) : Principal :=
  ⟨req.resolvedTenant, req.authorizationValue, req.authIdentity, req.clientKey⟩

/-- Two callers that are told apart by their principals and not by their keys: one forges the other,
or they differ in lone surrogates only. -/
def Confused (p q : CallerRequest) : Prop :=
  p.clientKey = q.clientKey ∧ Agree p.resolvedTenant q.resolvedTenant ∧
    (Forges p q ∨ Forges q p ∨
      p.authorizationValue = q.authorizationValue ∧ Agree p.authIdentity q.authIdentity ∧
        (p.resolvedTenant ≠ q.resolvedTenant ∨ p.authIdentity ≠ q.authIdentity))

theorem storeKey_eq_ok {opts : KeyOptions} {req : CallerRequest} {k : JsString}
    (h : storeKey digest opts req = .ok (some k)) :
    ∃ key, req.clientKey = some key ∧ k = namespacedKey digest opts req key := by
  rw [storeKey] at h
  split at h
  · split at h
    · simp at h
    · simp at h
  · next key hkey =>
    obtain ⟨-, -, h⟩ := bind_eq_ok.mp h
    obtain ⟨-, h⟩ := guard_eq_ok.mp h
    exact ⟨key, (Option.filter_eq_some_iff.mp hkey).1, (Option.some.inj (Except.ok.inj h)).symm⟩

/-- **Which callers are kept apart.** Two requests with different principals have different store
keys if and only if they are not confused. -/
theorem storeKey_separates_iff (hinj : Function.Injective digest)
    (hlength : ∀ bytes, digest bytes ≠ []) {opts : KeyOptions} {p q : CallerRequest}
    {k k' : JsString} (hp : storeKey digest opts p = .ok (some k))
    (hq : storeKey digest opts q = .ok (some k')) :
    (p.principal ≠ q.principal → k ≠ k') ↔ ¬ Confused p q := by
  obtain ⟨key, hkey, rfl⟩ := storeKey_eq_ok hp
  obtain ⟨key', hkey', rfl⟩ := storeKey_eq_ok hq
  have hkeys : p.clientKey = q.clientKey ↔ key = key' := by
    rw [hkey, hkey', Option.some_inj]
  rw [ne_eq, ne_eq, namespacedKey_eq_iff hinj hlength, agree_defaultScope_iff, ← hkeys]
  constructor
  · rintro hseparates ⟨hclient, htenant, hconfused⟩
    refine hseparates ?_ ⟨hclient, htenant, ?_⟩
    · intro heq
      obtain ⟨hten, hauth, hident, -⟩ := Principal.mk.inj heq
      rcases hconfused with h | h | ⟨-, -, h⟩
      · obtain ⟨hnone, _, _, -, hsome, -⟩ := h
        rw [hauth, hnone] at hsome
        simp at hsome
      · obtain ⟨hnone, _, _, -, hsome, -⟩ := h
        rw [← hauth, hnone] at hsome
        simp at hsome
      · exact h.elim (fun h => h hten) (fun h => h hident)
    · rcases hconfused with h | h | ⟨hauth, hident, -⟩
      · exact .inr (.inl h)
      · exact .inr (.inr h)
      · exact .inl ⟨hauth, hident⟩
  · rintro hconfused hprincipal ⟨hclient, htenant, hscope⟩
    apply hconfused
    refine ⟨hclient, htenant, ?_⟩
    rcases hscope with ⟨hauth, hident⟩ | h | h
    · refine .inr (.inr ⟨hauth, hident, ?_⟩)
      by_contra hsame
      rw [not_or, not_ne_iff, not_ne_iff] at hsame
      apply hprincipal
      rw [CallerRequest.principal, CallerRequest.principal, hsame.1, hauth, hsame.2, hclient]
    · exact .inl h
    · exact .inr (.inl h)

/-- A client that signs its requests, and sends no `Authorization`. -/
def signedCaller : CallerRequest where
  key := some ⟨js "order-1", by decide⟩
  recorded := [js "httpsig:[\"key-1\",\"hmac-sha256\"]"]

def forgingCaller : CallerRequest where
  key := some ⟨js "order-1", by decide⟩
  authorization := some ⟨js "id:httpsig:[\"key-1\",\"hmac-sha256\"]", by decide⟩

theorem forged_storeKey :
    signedCaller.principal ≠ forgingCaller.principal ∧ Forges forgingCaller signedCaller ∧
      ∀ digest, ∃ k, storeKey digest {} signedCaller = .ok (some k) ∧
        storeKey digest {} forgingCaller = .ok (some k) := by
  refine ⟨by decide, ⟨rfl, _, js "httpsig:[\"key-1\",\"hmac-sha256\"]", rfl, by decide, rfl⟩, ?_⟩
  intro digest
  have hscope : defaultScope signedCaller = defaultScope forgingCaller := by decide
  have hstored (req : CallerRequest) (hkey : req.key = some ⟨js "order-1", by decide⟩)
      (hcookie : req.hasCookie = false) :
      storeKey digest {} req = .ok (some (namespacedKey digest {} req (js "order-1"))) := by
    have htrim : (some (⟨js "order-1", by decide⟩ : HeaderValue)).map (fun v => trim v.units) =
        some (js "order-1") := by decide
    rw [storeKey, hkey, htrim]
    simp only [hcookie, Bool.false_eq_true, and_false, if_false]
    rfl
  refine ⟨_, hstored signedCaller rfl rfl, ?_⟩
  rw [hstored forgingCaller rfl rfl, namespacedKey, namespacedKey, hscope]
  rfl

/-- The digest of `a`, and a byte in front of any other text. -/
def exampleDigest (bytes : List UInt8) : List UInt8 :=
  if bytes = [0x61] then
    [0xCA, 0x97, 0x81, 0x12, 0xCA, 0x1B, 0xBD, 0xCA, 0xFA, 0xC2, 0x31, 0xB3, 0x9A, 0x23,
    0xDC, 0x4D, 0xA7, 0x86, 0xEF, 0xF8, 0x14, 0x7C, 0x4E, 0x72, 0xB9, 0x80, 0x77, 0x85, 0xAF, 0xEE, 0x48, 0xBB]
  else 0x00 :: bytes

theorem storeKey_separates_iff_example :
    (CallerRequest.principal { key := some ⟨js "order-1", by decide⟩ } ≠
        CallerRequest.principal
          { key := some ⟨js "order-1", by decide⟩, authorization := some ⟨js "a", by decide⟩ } →
      js "t=|s=|k=order-1" ≠ js ("t=|s=" ++
        "ca978112ca1bbdcafac231b39a23dc4da786eff8147c4e72b9807785afee48bb" ++ "|k=order-1")) ↔
      ¬ Confused { key := some ⟨js "order-1", by decide⟩ }
        { key := some ⟨js "order-1", by decide⟩, authorization := some ⟨js "a", by decide⟩ } :=
  @storeKey_separates_iff exampleDigest
    (by
      intro a b h
      simp only [exampleDigest] at h
      split at h
      · next ha =>
        split at h
        · next hb => rw [ha, hb]
        · simp at h
      · split at h
        · simp at h
        · exact (List.cons.inj h).2)
    (by
      intro bytes
      rw [exampleDigest]
      split
      · simp
      · simp)
    {} _ _ _ _ (by decide) (by decide)

end Daloy.Idempotency
