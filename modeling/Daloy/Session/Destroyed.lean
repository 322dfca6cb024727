import Daloy.Session.Sessions

/-! # Destroyed sessions

* `destroyed_stays_destroyed`: where no session is destroyed between the re-read and the write of a
  write-back, no record is ever written under a destroyed id.
* `session_revived`: without `update`, a request that has re-read the record of a session writes it
  back after the logout.
-/

namespace Daloy.Session
set_option autoImplicit false

open Daloy.Runs Daloy.Unicode

variable {δ : Type}

/-! ## Conditions on steps -/

def SessionEvent.next? : SessionEvent δ → Option JsString
  | .beforeHandle _ _ _ next | .regenerate _ _ _ next _ | .fulfil _ next _ => some next
  | _ => none

def Server.Fresh (s : Server δ) (event : SessionEvent δ) : Prop :=
  ∀ next ∈ event.next?, s.born next = false ∧ s.owner next = none

instance (s : Server δ) (event : SessionEvent δ) : Decidable (s.Fresh event) :=
  inferInstanceAs (Decidable (∀ next ∈ event.next?, _))

def PendingCall.destroys? (call : PendingCall δ) : Option JsString :=
  match call.job.op with
  | .destroy sid => some sid
  | _ => none

/-- The id that is between the re-read, which has found it, and the write of `writeExisting`. -/
def PendingCall.rewrites? (call : PendingCall δ) : Option JsString :=
  match call.job, call.answer with
  | .reread sid _, some (.record (some _)) => some sid
  | .writeBack sid _, none => some sid
  | _, _ => none

/-- The store has `update`, or the step destroys no session that is being written back. -/
def Server.Clear (store : SessionStore) (s : Server δ) : SessionEvent δ → Prop
  | .execute j => store.hasUpdate = true ∨ ∀ call ∈ s.calls.get? j, ∀ sid ∈ call.destroys?,
      ∀ e ∈ s.calls.entries, e.2.rewrites? ≠ some sid
  | _ => True

instance (store : SessionStore) (s : Server δ) (event : SessionEvent δ) :
    Decidable (s.Clear store event) :=
  match event with
  | .execute j => inferInstanceAs (Decidable (_ ∨ ∀ call ∈ s.calls.get? j, ∀ sid ∈ call.destroys?,
      ∀ e ∈ s.calls.entries, e.2.rewrites? ≠ some sid))
  | .beforeHandle .. | .setData .. | .destroy _ | .regenerate .. | .onSend .. | .fulfil .. |
    .reject _ | .lose _ => .isTrue trivial

theorem Records.remove_none {records : Records δ} {k : JsString} (h : records k = none)
    (sid : JsString) : Function.update records sid none k = none := by
  rw [Function.update_apply]
  split
  · rfl
  · exact h

theorem StoreOp.execute_none {op : StoreOp δ} {records : Records δ} {sid : JsString}
    (hset : ∀ record, op ≠ .set sid record) (h : records sid = none) :
    (op.execute records).1 sid = none := by
  have hother {k : JsString} {found : SessionRecord δ} (hfound : records k = some found) :
      sid ≠ k := by
    rintro rfl
    rw [h] at hfound
    simp at hfound
  cases op with
  | get k => exact h
  | set k record =>
    have hk : sid ≠ k := by
      rintro rfl
      exact hset record rfl
    exact (Function.update_of_ne hk ..).trans h
  | update k record =>
    dsimp only [execute]
    split
    · next found hfound => exact (Function.update_of_ne (hother hfound) ..).trans h
    · exact h
  | touch k expiresAt =>
    dsimp only [execute]
    split
    · next found hfound => exact (Function.update_of_ne (hother hfound) ..).trans h
    · exact h
  | destroy k => exact Records.remove_none h k

/-! ## The invariant -/

def PendingCall.Sound (store : SessionStore) (s : Server δ) (call : PendingCall δ) : Prop :=
  match call.job with
  | .load sid => ∀ found, call.answer = some (.record (some found)) → s.born sid = true
  | .regenerate sid _ | .logout sid | .destroyOriginal sid => s.born sid = true
  | .reread sid _ => store.hasUpdate = false ∧ ∀ found, call.answer = some (.record (some found)) →
      s.born sid = true ∧ sid ∉ s.destroyed
  | .writeBack sid _ => store.hasUpdate = false ∧
      (call.answer = none → s.born sid = true ∧ sid ∉ s.destroyed)
  | .create sid _ => (s.request call.request).sent = true ∧
      (call.answer = none → s.born sid = false ∧ s.owner sid = some call.request)
  | .update _ _ | .touch _ _ => True

def PendingCall.creates (call : PendingCall δ) : Bool :=
  match call.job with
  | .create _ _ => true
  | _ => false

/-- The ids of a session: the one it was loaded under has a record or had one, and one that it is
not yet stored under is its own. -/
structure SessionInternal.Sound (s : Server δ) (r : ℕ) (internal : SessionInternal δ) : Prop where
  loaded : ∀ sid ∈ internal.originalId, s.born sid = true
  unborn : (s.request r).sent = false → internal.originalId ≠ some internal.activeId →
    s.born internal.activeId = false ∧ s.owner internal.activeId = some r

structure Server.Inv (store : SessionStore) (s : Server δ) : Prop where
  gone : ∀ sid ∈ s.destroyed, s.records sid = none
  recorded : ∀ sid, s.records sid ≠ none → s.born sid = true
  buried : ∀ sid ∈ s.destroyed, s.born sid = true
  internals : ∀ r, ∀ internal ∈ (s.request r).internal, internal.Sound s r
  calls : ∀ j, ∀ call ∈ s.calls.get? j, call.Sound store s
  single : ∀ j j', ∀ call ∈ s.calls.get? j, ∀ call' ∈ s.calls.get? j',
    call.creates = true → call'.creates = true → call.request = call'.request → j = j'

variable {store : SessionStore} {opts : SessionOptions} {s s' : Server δ}

theorem PendingCall.Sound.mono {call : PendingCall δ} (h : call.Sound store s)
    (hsent : ∀ {r}, (s.request r).sent = true → (s'.request r).sent = true)
    (hborn : ∀ {sid}, s.born sid = true → s'.born sid = true)
    (howner : ∀ {sid r}, s.owner sid = some r → s'.owner sid = some r)
    (hunborn : ∀ {sid}, call.creates = true → call.answer = none →
      s.owner sid = some call.request → s.born sid = false → s'.born sid = false)
    (halive : ∀ {sid}, call.rewrites? = some sid → sid ∉ s.destroyed → sid ∉ s'.destroyed) :
    call.Sound store s' := by
  obtain ⟨r, job, answer⟩ := call
  cases job with
  | load sid => exact fun found hfound => hborn (h found hfound)
  | regenerate sid keepData => exact hborn h
  | logout sid => exact hborn h
  | destroyOriginal sid => exact hborn h
  | update sid record => trivial
  | touch sid expiresAt => trivial
  | reread sid record =>
    obtain ⟨hstore, hfound⟩ := h
    refine ⟨hstore, ?_⟩
    rintro found rfl
    obtain ⟨hb, hlive⟩ := hfound found rfl
    exact ⟨hborn hb, halive rfl hlive⟩
  | writeBack sid record =>
    obtain ⟨hstore, hopen⟩ := h
    refine ⟨hstore, ?_⟩
    rintro rfl
    obtain ⟨hb, hlive⟩ := hopen rfl
    exact ⟨hborn hb, halive rfl hlive⟩
  | create sid record =>
    obtain ⟨hs, hopen⟩ := h
    refine ⟨hsent hs, ?_⟩
    intro hnone
    obtain ⟨hb, ho⟩ := hopen hnone
    exact ⟨hunborn rfl hnone ho hb, howner ho⟩

theorem PendingCall.Sound.noUpdate {call : PendingCall δ} (h : call.Sound store s) {sid : JsString}
    (hsid : call.rewrites? = some sid) : store.hasUpdate = false := by
  obtain ⟨r, job, answer⟩ := call
  cases job with
  | reread k record => exact h.1
  | writeBack k record => exact h.1
  | _ => simp [rewrites?] at hsid

theorem PendingCall.Sound.sent_of_creates {call : PendingCall δ} (h : call.Sound store s)
    (hcreates : call.creates = true) : (s.request call.request).sent = true := by
  obtain ⟨r, job, answer⟩ := call
  cases job with
  | create sid record => exact h.1
  | _ => simp [creates] at hcreates

namespace Server.Inv

theorem update (h : s.Inv store) (hrecords : s'.records = s.records) (hborn : s'.born = s.born)
    (hdestroyed : s'.destroyed = s.destroyed)
    (howner : ∀ {sid r}, s.owner sid = some r → s'.owner sid = some r)
    (hsent : ∀ {r}, (s.request r).sent = true → (s'.request r).sent = true)
    (hinternals : ∀ r, ∀ internal ∈ (s'.request r).internal,
      internal ∈ (s.request r).internal ∨ internal.Sound s' r)
    (hcalls : ∀ j, ∀ call ∈ s'.calls.get? j, call ∈ s.calls.get? j ∨ call.Sound store s')
    (hsingle : ∀ j j', ∀ call ∈ s'.calls.get? j, ∀ call' ∈ s'.calls.get? j',
      call.creates = true → call'.creates = true → call.request = call'.request → j = j') :
    s'.Inv store := by
  refine ⟨?_, ?_, ?_, ?_, ?_, hsingle⟩
  · rw [hdestroyed, hrecords]
    exact h.gone
  · rw [hrecords, hborn]
    exact h.recorded
  · rw [hdestroyed, hborn]
    exact h.buried
  · intro r internal hmem
    rcases hinternals r internal hmem with hold | hnew
    · obtain ⟨hloaded, hunborn⟩ := h.internals r internal hold
      refine ⟨by rwa [hborn], ?_⟩
      intro hunsent hne
      have hunsent' : (s.request r).sent = false := by
        rw [Bool.eq_false_iff] at hunsent ⊢
        exact fun hs => hunsent (hsent hs)
      obtain ⟨hnew, hown⟩ := hunborn hunsent' hne
      exact ⟨hborn ▸ hnew, howner hown⟩
    · exact hnew
  · intro j call hmem
    rcases hcalls j call hmem with hold | hnew
    · apply (h.calls j call hold).mono hsent (fun hk => hborn ▸ hk) howner
      · exact fun _ _ _ hk => hborn ▸ hk
      · exact fun _ hk => hdestroyed ▸ hk
    · exact hnew

theorem updateRequests (h : s.Inv store) (hrecords : s'.records = s.records)
    (hborn : s'.born = s.born) (hdestroyed : s'.destroyed = s.destroyed)
    (howner : ∀ {sid r}, s.owner sid = some r → s'.owner sid = some r)
    (hsent : ∀ {r}, (s.request r).sent = true → (s'.request r).sent = true)
    (hcalls : s'.calls = s.calls)
    (hinternals : ∀ r, ∀ internal ∈ (s'.request r).internal,
      internal ∈ (s.request r).internal ∨ internal.Sound s' r) : s'.Inv store := by
  refine h.update hrecords hborn hdestroyed howner hsent hinternals ?_ ?_
  · rw [hcalls]
    exact fun _ _ hmem => .inl hmem
  · rw [hcalls]
    exact h.single

theorem setTombstones (h : s.Inv store) (tombstones : JsMap JsString ℤ) :
    { s with tombstones }.Inv store :=
  h.updateRequests rfl rfl rfl id id rfl fun _ _ hmem => .inl hmem

theorem setInternal (h : s.Inv store) {r : ℕ} {internal : SessionInternal δ}
    (hinternal : internal.Sound s r) : (s.setInternal r internal).Inv store := by
  have hsent (t : ℕ) : ((s.setInternal r internal).request t).sent = (s.request t).sent := by
    dsimp only [Server.setInternal]
    rw [Function.update_apply]
    split
    · next ht => rw [ht]
    · rfl
  refine h.updateRequests rfl rfl rfl id (fun hs => (hsent _).trans hs) rfl ?_
  intro t internal' hmem
  dsimp only [Server.setInternal] at hmem
  rw [Function.update_apply] at hmem
  split at hmem
  · next ht =>
    obtain rfl := Option.some.inj hmem
    right
    rw [ht]
    exact ⟨hinternal.loaded, fun hunsent => hinternal.unborn ((hsent r).symm.trans hunsent)⟩
  · exact .inl hmem

theorem setFlags (h : s.Inv store) {r : ℕ} {q : Request δ}
    (hinternal : q.internal = (s.request r).internal)
    (hsent : (s.request r).sent = true → q.sent = true) :
    { s with request := Function.update s.request r q }.Inv store := by
  refine h.updateRequests rfl rfl rfl id ?_ rfl ?_
  · intro t ht
    dsimp only
    rw [Function.update_apply]
    split
    · next htr => exact hsent (htr ▸ ht)
    · exact ht
  · intro t internal hmem
    dsimp only at hmem
    rw [Function.update_apply] at hmem
    split at hmem
    · next htr =>
      rw [hinternal] at hmem
      exact .inl (htr ▸ hmem)
    · exact .inl hmem

theorem generated (h : s.Inv store) {next : JsString} (hnext : s.owner next = none) (r : ℕ) :
    (s.generated next r).Inv store := by
  refine h.updateRequests rfl rfl rfl ?_ id rfl fun _ _ hmem => .inl hmem
  intro sid t howner
  dsimp only [Server.generated]
  rw [Function.update_of_ne]
  · exact howner
  · rintro rfl
    rw [hnext] at howner
    simp at howner

theorem delete (h : s.Inv store) (j : ℕ) : { s with calls := s.calls.delete j }.Inv store := by
  have hmem {i : ℕ} {call : PendingCall δ} (hcall : call ∈ (s.calls.delete j).get? i) :
      call ∈ s.calls.get? i := by
    rw [JsMap.get?_delete] at hcall
    split at hcall
    · simp at hcall
    · exact hcall
  refine h.update rfl rfl rfl id id (fun _ _ hi => .inl hi) ?_ ?_
  · exact fun i call hcall => .inl (hmem hcall)
  · exact fun i i' call hcall call' hcall' => h.single i i' call (hmem hcall) call' (hmem hcall')

theorem callStore (h : s.Inv store) {j r : ℕ} {job : Job δ}
    (hsound : PendingCall.Sound store s ⟨r, job, none⟩)
    (hcreates : PendingCall.creates ⟨r, job, none⟩ = true →
      ∀ i, ∀ call ∈ s.calls.get? i, call.creates = true → call.request ≠ r) :
    (s.callStore j r job).Inv store := by
  have hmem {i : ℕ} {call : PendingCall δ} (hcall : call ∈ (s.calls.set j ⟨r, job, none⟩).get? i) :
      i = j ∧ call = ⟨r, job, none⟩ ∨ call ∈ s.calls.get? i := by
    rw [JsMap.get?_set] at hcall
    split at hcall
    · next hi => exact .inl ⟨hi, (Option.some.inj hcall).symm⟩
    · exact .inr hcall
  refine h.update rfl rfl rfl id id (fun _ _ hi => .inl hi) ?_ ?_
  · intro i call hcall
    rcases hmem hcall with ⟨-, rfl⟩ | hold
    · exact .inr hsound
    · exact .inl hold
  · intro i i' call hcall call' hcall' hc hc' hr
    rcases hmem hcall with ⟨rfl, rfl⟩ | hold
    · rcases hmem hcall' with ⟨rfl, -⟩ | hold'
      · rfl
      · exact absurd hr.symm (hcreates hc i' call' hold' hc')
    · rcases hmem hcall' with ⟨rfl, rfl⟩ | hold'
      · exact absurd hr (hcreates hc' i call hold hc)
      · exact h.single i i' call hold call' hold' hc hc' hr

/-! What the store executes -/

theorem single_execute (h : s.Inv store) {j : ℕ} {call : PendingCall δ}
    (hcall : s.calls.get? j = some call) (answer : Answer δ) {i i' : ℕ}
    {c c' : PendingCall δ} (hc : c ∈ (s.calls.set j { call with answer := some answer }).get? i)
    (hc' : c' ∈ (s.calls.set j { call with answer := some answer }).get? i')
    (hcreates : c.creates = true) (hcreates' : c'.creates = true) (hr : c.request = c'.request) :
    i = i' := by
  have hmem {i : ℕ} {c : PendingCall δ}
      (hc : c ∈ (s.calls.set j { call with answer := some answer }).get? i) :
      ∃ d ∈ s.calls.get? i, d.request = c.request ∧ d.creates = c.creates := by
    rw [JsMap.get?_set] at hc
    split at hc
    · next hi =>
      obtain rfl := Option.some.inj hc
      exact ⟨call, hi ▸ hcall, rfl, rfl⟩
    · exact ⟨c, hc, rfl, rfl⟩
  obtain ⟨d, hd, hdr, hdc⟩ := hmem hc
  obtain ⟨d', hd', hdr', hdc'⟩ := hmem hc'
  exact h.single i i' d hd d' hd' (hdc.trans hcreates) (hdc'.trans hcreates')
    (hdr.trans (hr.trans hdr'.symm))

theorem answered (h : s.Inv store) {j : ℕ} {call : PendingCall δ}
    (hcall : s.calls.get? j = some call) {records : Records δ} {answer : Answer δ}
    (hrecords : ∀ sid, records sid ≠ none → s.records sid ≠ none)
    (hsound : PendingCall.Sound store s { call with answer := some answer }) :
    Server.Inv store
      { s with records, calls := s.calls.set j { call with answer := some answer } } := by
  refine ⟨?_, ?_, h.buried, ?_, ?_, ?_⟩
  · intro sid hsid
    by_contra hne
    exact hrecords sid hne (h.gone sid hsid)
  · exact fun sid hne => h.recorded sid (hrecords sid hne)
  · intro r internal hi
    obtain ⟨hloaded, hunborn⟩ := h.internals r internal hi
    exact ⟨hloaded, hunborn⟩
  · intro i c hc
    dsimp only at hc
    rw [JsMap.get?_set] at hc
    split at hc
    · obtain rfl := Option.some.inj hc
      exact hsound
    · exact h.calls i c hc
  · exact fun i i' c hc c' hc' => h.single_execute hcall answer hc hc'

/-- A call of `set` puts a record under an id that is not destroyed and that nobody else is about to
write for the first time. -/
theorem written (h : s.Inv store) {j : ℕ} {call : PendingCall δ}
    (hcall : s.calls.get? j = some call) {sid : JsString} {record : SessionRecord δ}
    {answer : Answer δ} (halive : sid ∉ s.destroyed)
    (hsound : PendingCall.Sound store s { call with answer := some answer })
    (hown : ∀ {r}, s.born sid = false → s.owner sid = some r →
      (s.request r).sent = true ∧
        ∀ i, ∀ c ∈ s.calls.get? i, c.creates = true → c.request = r → i = j) :
    Server.Inv store { s with
      records := Function.update s.records sid (some record)
      calls := s.calls.set j { call with answer := some answer }
      born := Function.update s.born sid true } := by
  have hborn {k : JsString} (hk : s.born k = true) : Function.update s.born sid true k = true := by
    rw [Function.update_apply]
    split
    · rfl
    · exact hk
  refine ⟨?_, ?_, fun k hk => hborn (h.buried k hk), ?_, ?_, ?_⟩
  · intro k hk
    dsimp only
    rw [Function.update_of_ne]
    · exact h.gone k hk
    · rintro rfl
      exact halive hk
  · intro k hne
    dsimp only at hne ⊢
    rw [Function.update_apply] at hne ⊢
    split
    · rfl
    · next hk =>
      rw [if_neg hk] at hne
      exact h.recorded k hne
  · intro r internal hi
    obtain ⟨hloaded, hunborn⟩ := h.internals r internal hi
    refine ⟨fun k hk => hborn (hloaded k hk), ?_⟩
    intro hunsent hne
    obtain ⟨hnew, howner⟩ := hunborn hunsent hne
    refine ⟨?_, howner⟩
    dsimp only
    rw [Function.update_of_ne]
    · exact hnew
    · intro hk
      have hsent := (hown (hk ▸ hnew) (hk ▸ howner)).1
      have hunsent' : (s.request r).sent = false := hunsent
      rw [hunsent'] at hsent
      simp at hsent
  · intro i c hc
    dsimp only at hc
    rw [JsMap.get?_set] at hc
    split at hc
    · obtain rfl := Option.some.inj hc
      refine hsound.mono id hborn id ?_ (fun _ hk => hk)
      intro k _ hnone
      simp at hnone
    · next hij =>
      refine (h.calls i c hc).mono id hborn id ?_ (fun _ hk => hk)
      intro k hcreates _ howner hk
      dsimp only
      rw [Function.update_of_ne]
      · exact hk
      · rintro rfl
        exact hij ((hown hk howner).2 i c hc hcreates rfl)
  · exact fun i i' c hc c' hc' => h.single_execute hcall answer hc hc'

theorem destroyed (h : s.Inv store) {j : ℕ} {call : PendingCall δ}
    (hcall : s.calls.get? j = some call) {sid : JsString} {answer : Answer δ}
    (hborn : s.born sid = true)
    (hsound : PendingCall.Sound store s { call with answer := some answer })
    (hrewrites : PendingCall.rewrites? { call with answer := some answer } = none)
    (hclear : store.hasUpdate = true ∨ ∀ e ∈ s.calls.entries, e.2.rewrites? ≠ some sid) :
    Server.Inv store { s with
      records := Function.update s.records sid none
      calls := s.calls.set j { call with answer := some answer }
      destroyed := sid :: s.destroyed } := by
  refine ⟨?_, ?_, ?_, ?_, ?_, ?_⟩
  · intro k hk
    rcases List.mem_cons.mp hk with rfl | hk
    · exact Function.update_self ..
    · exact Records.remove_none (h.gone k hk) sid
  · exact fun k hne => h.recorded k fun hk => hne (Records.remove_none hk sid)
  · intro k hk
    rcases List.mem_cons.mp hk with rfl | hk
    · exact hborn
    · exact h.buried k hk
  · intro r internal hi
    obtain ⟨hloaded, hunborn⟩ := h.internals r internal hi
    exact ⟨hloaded, hunborn⟩
  · intro i c hc
    dsimp only at hc
    rw [JsMap.get?_set] at hc
    split at hc
    · obtain rfl := Option.some.inj hc
      refine hsound.mono id id id (fun _ _ _ hk => hk) ?_
      intro k hk
      rw [hrewrites] at hk
      simp at hk
    · refine (h.calls i c hc).mono id id id (fun _ _ _ hk => hk) ?_
      intro k hk hlive
      rw [List.mem_cons, not_or]
      refine ⟨?_, hlive⟩
      rintro rfl
      rcases hclear with hupdate | hclear
      · have hnone := (h.calls i c hc).noUpdate hk
        rw [hupdate] at hnone
        simp at hnone
      · exact hclear (i, c) (JsMap.get?_eq_some.mp hc) hk
  · exact fun i i' c hc c' hc' => h.single_execute hcall answer hc hc'

theorem execute (h : s.Inv store) {j : ℕ} {call : PendingCall δ}
    (hcall : s.calls.get? j = some call) (hopen : call.answer = none)
    (hclear : s.Clear store (.execute j)) : (s.execute j call).Inv store := by
  have hsound := h.calls j call hcall
  obtain ⟨r, job, answer⟩ := call
  obtain rfl : answer = none := hopen
  cases job with
  | load sid =>
    refine h.answered hcall (fun _ hne => hne) ?_
    intro found hfound
    have hfound' : s.records sid = some found := Answer.record.inj (Option.some.inj hfound)
    exact h.recorded sid (by simp [hfound'])
  | reread sid record =>
    refine h.answered hcall (fun _ hne => hne) ?_
    refine ⟨hsound.1, ?_⟩
    intro found hfound
    have hfound' : s.records sid = some found := Answer.record.inj (Option.some.inj hfound)
    refine ⟨h.recorded sid (by simp [hfound']), ?_⟩
    intro hmem
    rw [h.gone sid hmem] at hfound'
    simp at hfound'
  | update sid record =>
    refine h.answered hcall ?_ trivial
    exact fun k hne hk => hne (StoreOp.execute_none (by simp [Job.op]) hk)
  | touch sid expiresAt =>
    refine h.answered hcall ?_ trivial
    exact fun k hne hk => hne (StoreOp.execute_none (by simp [Job.op]) hk)
  | writeBack sid record =>
    obtain ⟨hb, hlive⟩ := hsound.2 rfl
    refine h.written hcall hlive ⟨hsound.1, by simp⟩ ?_
    intro t hunborn
    rw [hunborn] at hb
    simp at hb
  | create sid record =>
    obtain ⟨hb, ho⟩ := hsound.2 rfl
    refine h.written hcall ?_ ⟨hsound.1, by simp⟩ ?_
    · intro hmem
      rw [h.buried sid hmem] at hb
      simp at hb
    · intro t _ howner
      obtain rfl : r = t := Option.some.inj (ho.symm.trans howner)
      exact ⟨hsound.1, fun i c hc hcreates hr => h.single i j c hc _ hcall hcreates rfl hr⟩
  | regenerate sid keepData =>
    exact h.destroyed hcall hsound hsound rfl (hclear.imp id fun hc => hc _ hcall sid rfl)
  | logout sid =>
    exact h.destroyed hcall hsound hsound rfl (hclear.imp id fun hc => hc _ hcall sid rfl)
  | destroyOriginal sid =>
    exact h.destroyed hcall hsound hsound rfl (hclear.imp id fun hc => hc _ hcall sid rfl)

theorem lost (h : s.Inv store) (sid : JsString) :
    { s with records := Function.update s.records sid none }.Inv store := by
  refine ⟨?_, ?_, h.buried, ?_, ?_, h.single⟩
  · exact fun k hk => Records.remove_none (h.gone k hk) sid
  · exact fun k hne => h.recorded k fun hk => hne (Records.remove_none hk sid)
  · intro r internal hi
    obtain ⟨hloaded, hunborn⟩ := h.internals r internal hi
    exact ⟨hloaded, hunborn⟩
  · exact fun i call hcall =>
      (h.calls i call hcall).mono id id id (fun _ _ _ hk => hk) (fun _ hk => hk)

/-! What the hooks do -/

theorem fresh (h : s.Inv store) {r : ℕ} {internal : SessionInternal δ}
    (horiginal : internal.originalId = none)
    (hnext : s.born internal.activeId = false ∧ s.owner internal.activeId = none) :
    ((s.generated internal.activeId r).setInternal r internal).Inv store := by
  refine (h.generated hnext.2 r).setInternal ⟨?_, ?_⟩
  · intro sid hsid
    rw [horiginal] at hsid
    simp at hsid
  · intro _ _
    exact ⟨hnext.1, Function.update_self ..⟩

theorem afterWrite (h : s.Inv store) (r : ℕ) (sid : JsString) (j : ℕ) :
    (s.afterWrite r sid j).Inv store := by
  rw [Server.afterWrite]
  split
  · exact h
  · next internal hinternal =>
    split
    · next original horiginal =>
      split
      · apply h.callStore
        · exact (h.internals r internal hinternal).loaded original horiginal
        · simp [PendingCall.creates]
      · exact h
    · exact h

theorem writeExisting_sound (r : ℕ) (sid : JsString) (record : SessionRecord δ) :
    PendingCall.Sound store s ⟨r, writeExisting store sid record, none⟩ := by
  rw [writeExisting]
  split
  · trivial
  · next hupdate => exact ⟨by simpa using hupdate, by simp⟩

theorem writeExisting_creates (r : ℕ) (sid : JsString) (record : SessionRecord δ) :
    PendingCall.creates ⟨r, writeExisting store sid record, none⟩ = false := by
  rw [writeExisting]
  split <;> rfl

theorem onSend (h : s.Inv store) {r : ℕ} (hsent : (s.request r).sent = false) (j : ℕ) (now : ℤ) :
    (s.onSend store opts r j now).Inv store := by
  have hsend (tombstones : JsMap JsString ℤ) : Server.Inv store { s with
      request := Function.update s.request r { s.request r with sent := true }
      tombstones } := by
    have hflags := h.setFlags (q := { s.request r with sent := true }) rfl fun _ => rfl
    exact hflags.setTombstones tombstones
  have hloads {job : Job δ} (tombstones : JsMap JsString ℤ)
      (hsound : PendingCall.Sound store s ⟨r, job, none⟩)
      (hcreates : PendingCall.creates ⟨r, job, none⟩ = false) :
      (Server.callStore { s with
        request := Function.update s.request r { s.request r with sent := true }
        tombstones } j r job).Inv store := by
    apply (hsend tombstones).callStore
    · refine hsound.mono ?_ id id (fun _ _ _ hk => hk) (fun _ hk => hk)
      intro t ht
      dsimp only
      rw [Function.update_apply]
      split
      · rfl
      · exact ht
    · rw [hcreates]
      simp
  rw [Server.onSend]
  dsimp only
  rw [Function.update_self]
  dsimp only
  split
  · exact hsend _
  · next internal hinternal =>
    obtain ⟨hloaded, hunborn⟩ := h.internals r internal hinternal
    split
    · split
      · next sid hsid => exact hloads _ (hloaded sid hsid) rfl
      · exact hsend _
    · split
      · exact hsend _
      · generalize (if decide (internal.originalId = some internal.activeId) then
          isTombstoned s.tombstones internal.activeId now else (s.tombstones, false)) = checked
        split
        · exact hsend _
        · split
          · split
            · exact hloads _ (writeExisting_sound ..) (writeExisting_creates ..)
            · next hnew =>
              have hown := hunborn hsent (by simpa using hnew)
              have hsend' := hsend checked.1
              apply hsend'.callStore
              · refine ⟨?_, fun _ => hown⟩
                dsimp only
                rw [Function.update_self]
              · intro _ i call hcall hcreates hr
                have hsent' := (h.calls i call hcall).sent_of_creates hcreates
                rw [hr, hsent] at hsent'
                simp at hsent'
          · split
            · split
              · exact hloads _ trivial rfl
              · exact hloads _ (writeExisting_sound ..) (writeExisting_creates ..)
            · exact hsend _

variable [EmptyCollection δ]

theorem create (h : s.Inv store) {next : JsString}
    (hnext : s.born next = false ∧ s.owner next = none) (r : ℕ) : (s.create r next).Inv store := by
  rw [Server.create]
  split
  · exact h
  · exact h.fresh rfl hnext

theorem rotate (h : s.Inv store) {next : JsString}
    (hnext : s.born next = false ∧ s.owner next = none) (r : ℕ) (internal : SessionInternal δ)
    (keepData : Bool) : (s.rotate r internal keepData next).Inv store := by
  rw [Server.rotate]
  split
  · exact h
  · exact h.fresh rfl hnext

theorem fulfilled (h : s.Inv store) {j : ℕ} {call : PendingCall δ} {answer : Answer δ}
    (hsound : call.Sound store s) (hanswer : call.answer = some answer) {next : JsString}
    (hnext : s.born next = false ∧ s.owner next = none) (now : ℤ) :
    (s.fulfilled j call.request next now call.job answer).Inv store := by
  obtain ⟨r, job, answer'⟩ := call
  obtain rfl : answer' = some answer := hanswer
  cases job with
  | load sid =>
    cases answer with
    | record found =>
      cases found with
      | some found =>
        dsimp only [Server.fulfilled]
        split
        · have hborn := hsound found rfl
          refine h.setInternal ⟨?_, ?_⟩
          · intro k hk
            obtain rfl : sid = k := Option.some.inj hk
            exact hborn
          · exact fun _ hne => absurd rfl hne
        · exact h.create hnext r
      | none => exact h.create hnext r
    | written existed => exact h.create hnext r
    | done => exact h.create hnext r
  | regenerate sid keepData =>
    dsimp only [Server.fulfilled]
    split
    · exact h.rotate hnext r _ keepData
    · exact h
  | logout sid => exact h
  | update sid record =>
    cases answer with
    | written existed =>
      cases existed with
      | true => exact h.afterWrite r sid j
      | false => exact h
    | record found => exact h
    | done => exact h
  | reread sid record =>
    cases answer with
    | record found =>
      cases found with
      | some found =>
        dsimp only [Server.fulfilled]
        split
        · apply h.callStore
          · exact ⟨hsound.1, fun _ => hsound.2 found rfl⟩
          · simp [PendingCall.creates]
        · exact h
      | none => exact h
    | written existed => exact h
    | done => exact h
  | writeBack sid record => exact h.afterWrite r sid j
  | create sid record => exact h.afterWrite r sid j
  | touch sid expiresAt => exact h.afterWrite r sid j
  | destroyOriginal sid => exact h

end Server.Inv

/-! ## Runs -/

theorem Server.Inv.step [EmptyCollection δ] (h : s.Inv store) {event : SessionEvent δ}
    (hfresh : s.Fresh event) (hclear : s.Clear store event)
    (hstep : s.step store opts event = some s') : s'.Inv store := by
  cases event with
  | beforeHandle r candidate j next =>
    have hnext := hfresh next rfl
    have hbegan := h.setFlags (q := { s.request r with began := true }) rfl id
    simp only [Server.step, Option.ite_none_right_eq_some, Option.some.injEq] at hstep
    obtain ⟨-, rfl⟩ := hstep
    cases candidate with
    | some sid =>
      apply hbegan.callStore
      · exact fun found hfound => by simp at hfound
      · simp [PendingCall.creates]
    | none => exact hbegan.create hnext r
  | setData r data =>
    simp only [Server.step, Option.map_eq_some_iff] at hstep
    obtain ⟨internal, hinternal, rfl⟩ := hstep
    obtain ⟨hloaded, hunborn⟩ := h.internals r internal hinternal
    exact h.setInternal ⟨hloaded, hunborn⟩
  | destroy r =>
    simp only [Server.step, Option.map_eq_some_iff] at hstep
    obtain ⟨internal, hinternal, rfl⟩ := hstep
    obtain ⟨hloaded, hunborn⟩ := h.internals r internal hinternal
    exact h.setInternal ⟨hloaded, hunborn⟩
  | regenerate r keepData j next now =>
    simp only [Server.step, Option.ite_none_right_eq_some, Option.map_eq_some_iff] at hstep
    obtain ⟨-, internal, hinternal, rfl⟩ := hstep
    rw [Server.regenerate]
    split
    · next hsame =>
      refine Server.Inv.setTombstones (h.callStore ?_ ?_) _
      · exact (h.internals r internal hinternal).loaded _ hsame.2
      · simp [PendingCall.creates]
    · exact h.rotate (hfresh next rfl) r internal keepData
  | onSend r j now =>
    simp only [Server.step, Option.ite_none_right_eq_some, Option.some.injEq] at hstep
    obtain ⟨⟨hsent, -⟩, rfl⟩ := hstep
    exact h.onSend hsent j now
  | execute j =>
    dsimp only [Server.step] at hstep
    split at hstep
    · next call hcall =>
      simp only [Option.ite_none_right_eq_some, Option.some.injEq] at hstep
      obtain ⟨hopen, rfl⟩ := hstep
      exact h.execute hcall (by simpa using hopen) hclear
    · simp at hstep
  | fulfil j next now =>
    dsimp only [Server.step] at hstep
    split at hstep
    · next call hcall =>
      obtain ⟨answer, hanswer, rfl⟩ := Option.map_eq_some_iff.mp hstep
      have hsound : call.Sound store { s with calls := s.calls.delete j } :=
        (h.calls j call hcall).mono id id id (fun _ _ _ hk => hk) (fun _ hk => hk)
      exact (h.delete j).fulfilled hsound hanswer (hfresh next rfl) now
    · simp at hstep
  | reject j =>
    dsimp only [Server.step] at hstep
    split at hstep
    · obtain rfl := Option.some.inj hstep
      exact h.delete j
    · simp at hstep
  | lose sid =>
    obtain rfl := Option.some.inj hstep
    exact h.lost sid

theorem Server.Inv.start (records : Records δ) : (Server.start records).Inv store where
  gone := by
    intro sid hsid
    simp [Server.start] at hsid
  recorded := by
    intro sid hne
    exact Option.isSome_iff_ne_none.mpr hne
  buried := by
    intro sid hsid
    simp [Server.start] at hsid
  internals := by
    intro r internal hinternal
    simp [Server.start] at hinternal
  calls := by
    intro j call hcall
    simp [Server.start] at hcall
  single := by
    intro j j' call hcall
    simp [Server.start] at hcall

/-- **A destroyed session stays destroyed** as long as the store implements `update`, or no session
is destroyed between the re-read and the write of a write-back. -/
theorem destroyed_stays_destroyed [EmptyCollection δ] (store : SessionStore)
    (opts : SessionOptions) (records : Records δ) (events : List (SessionEvent δ))
    (hgood : AllSteps (Server.step store opts)
      (fun s event => s.Fresh event ∧ s.Clear store event) (Server.start records) events)
    (hrun : run (Server.step store opts) (Server.start records) events = some s) :
    ∀ sid ∈ s.destroyed, s.records sid = none := by
  have hinv : Server.Inv store s := by
    refine run_invariant ?_ (Server.Inv.start records) hgood hrun
    exact fun _ _ _ hg h hstep => h.step hg.1 hg.2 hstep
  exact hinv.gone

/-! ## A write-back and a logout -/

def oneSession : Records (List ℕ) := fun sid =>
  if sid = js "a1b2" then some { data := [1], expiresAt := 86400000 } else none

/-- Requests 0 and 1 load the session; request 0 changes it and request 1 logs out. -/
def loadedTwice : List (SessionEvent (List ℕ)) :=
  [.beforeHandle 0 (some (js "a1b2")) 0 (js "n0"), .execute 0, .fulfil 0 (js "n1") 0,
    .beforeHandle 1 (some (js "a1b2")) 1 (js "n2"), .execute 1, .fulfil 1 (js "n3") 0,
    .setData 0 [1, 2], .destroy 1]

def rereadAfterLogout : List (SessionEvent (List ℕ)) :=
  List.append loadedTwice [.onSend 0 2 0, .onSend 1 3 0, .execute 3, .fulfil 3 (js "n4") 0,
    .execute 2, .fulfil 2 (js "n5") 0]

def rereadBeforeLogout : List (SessionEvent (List ℕ)) :=
  List.append loadedTwice [.onSend 0 2 0, .execute 2, .onSend 1 3 0, .execute 3, .fulfil 3 (js "n4") 0,
    .fulfil 2 (js "n5") 0, .execute 2]

theorem destroyed_stays_destroyed_example :
    ∃ s, run (Server.step ⟨false, false⟩ {}) (Server.start oneSession) rereadAfterLogout = some s ∧
      s.destroyed = [js "a1b2"] ∧ ∀ sid ∈ s.destroyed, s.records sid = none := by
  refine ⟨_, rfl, rfl, ?_⟩
  refine @destroyed_stays_destroyed _ _ _ ⟨false, false⟩ {} oneSession rereadAfterLogout ?_ rfl
  decide

/-- Without `update`, a request that has read its session again writes it back after the logout,
under a tombstone that has not expired. -/
theorem session_revived :
    AllSteps (Server.step ⟨false, false⟩ {}) Server.Fresh (Server.start oneSession)
        rereadBeforeLogout ∧
      ∃ s, run (Server.step ⟨false, false⟩ {}) (Server.start oneSession) rereadBeforeLogout =
          some s ∧
        js "a1b2" ∈ s.destroyed ∧ s.records (js "a1b2") ≠ none ∧
        (isTombstoned s.tombstones (js "a1b2") 0).2 = true := by
  refine ⟨by decide, _, rfl, ?_⟩
  decide

end Daloy.Session
