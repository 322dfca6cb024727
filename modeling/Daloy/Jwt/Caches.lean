import Daloy.Jwt.Issued

/-! # The key caches of a verifier

* `Reachable.bounded`: the cache of imported keys stays small.
* `caches_transparent`: nothing that a verifier answers depends on what it has kept.
-/

namespace Daloy.Jwt
set_option autoImplicit false

open Daloy.Unicode Daloy.Json

variable {ν : Type} [JsonDouble ν]

theorem length_delete_lt {m : JsMap JsString CryptoKey} {id : JsString} {key : CryptoKey}
    (h : (id, key) ∈ m.entries) : (m.delete id).size < m.size :=
  List.length_filter_lt_length_iff_exists.mpr ⟨_, h, by simp⟩

theorem Reachable.bounded {subtle : Subtle ν} {source : KeySource ν} {caches : KeyCaches}
    (h : Reachable subtle source caches) :
    caches.jwkMaterialCache.size ≤ MAX_JWK_MATERIAL_CACHE_ENTRIES := by
  induction h with
  | new => exact Nat.zero_le _
  | @lookedUp caches slot _ ih =>
    rcases slot with _ | alg | id
    · exact ih
    · exact ih
    · rw [lookupKey]
      cases hget : caches.jwkMaterialCache.get? id with
      | none => exact ih
      | some key =>
        have hless := length_delete_lt (JsMap.get?_eq_some.mp hget)
        have hgone : id ∉ (caches.jwkMaterialCache.delete id).entries.map Prod.fst :=
          JsMap.get?_eq_none.mp (by rw [JsMap.get?_delete, if_pos rfl])
        dsimp only
        rw [JsMap.size, JsMap.entries_set_of_not_mem hgone, List.length_append]
        exact Nat.le_trans hless ih
  | @stored caches alg header material key _ _ _ ih =>
    rcases slotOf source alg material with _ | alg | id
    · exact ih
    · exact ih
    · have hgrown : (caches.jwkMaterialCache.set id key).size ≤
          caches.jwkMaterialCache.size + 1 := by
        rw [JsMap.size, JsMap.set]
        split <;> simp [JsMap.size]
      rw [storeKey]
      split
      · split
        · next hentries => simp [JsMap.size, hentries]
        · next oldest rest hentries =>
          have hless := length_delete_lt (m := caches.jwkMaterialCache.set id key)
            (hentries ▸ List.mem_cons_self : oldest ∈ _)
          dsimp only
          omega
      · next hfits => exact Nat.le_of_not_lt hfits

/-- **What the caches hold never shows.** Whatever lookups and stores came before, in any
interleaving, they hold at most 64 imported keys, a key that is found is the one that would be
imported, and a token gets the verdict of a verifier that keeps nothing. -/
theorem caches_transparent {subtle : Subtle ν} {v : Verifier ν} {caches : KeyCaches}
    (h : Reachable subtle v.key caches) :
    caches.jwkMaterialCache.size ≤ MAX_JWK_MATERIAL_CACHE_ENTRIES ∧
    (∀ alg header material key, v.key.material header = some material →
      (lookupKey caches (slotOf v.key alg material)).1 = some key →
        keyFor subtle v.key alg header = .ok key) ∧
    ∀ now token, (verify subtle v now caches token).1 = verdict subtle v now token := by
  refine ⟨h.bounded, ?_, fun now token => (verify_spec h.sound now token).1⟩
  intro alg header material key hmaterial hfound
  obtain ⟨slot, hslot, hfits⟩ := (h.sound.lookup _).2 key hfound
  rw [keyFor, hmaterial]
  exact hfits alg header material hmaterial hslot

/-- The key of a first call is kept, and found again. -/
theorem caches_transparent_demo :
    (lookupKey (storeKey ⟨∅, ∅⟩ (importRaw (some .SHA256) demoSecret .verify)
        (some (.byAlg .HS256))) (some (.byAlg .HS256))).1 =
          some (importRaw (some .SHA256) demoSecret .verify) ∧
      (verify demoSubtle (demoVerifier 0 (le_refl 0) none) (.finite 1500)
        (storeKey ⟨∅, ∅⟩ (importRaw (some .SHA256) demoSecret .verify) (some (.byAlg .HS256)))
          demoToken).1 =
        verdict demoSubtle (demoVerifier 0 (le_refl 0) none) (.finite 1500) demoToken := by
  have hstored : Reachable demoSubtle (demoVerifier 0 (le_refl 0) none).key
      (storeKey ⟨∅, ∅⟩ (importRaw (some .SHA256) demoSecret .verify) (some (.byAlg .HS256))) :=
    @Reachable.stored _ _ _ _ _ .HS256 [] (.bytes demoSecret) _ .new rfl rfl
  exact ⟨rfl, (caches_transparent hstored).2.2 (.finite 1500) demoToken⟩

end Daloy.Jwt
