import Daloy.Egress.CidrBits
import Daloy.Egress.Redirects

/-! # The floor that no option lifts

What `isAddressAllowed` of `src/fetch-guard.ts` makes of an entry of `denyAddresses`, for every
reading of an address.

* `Describes`, `LiesIn`: what an entry says, on addresses of its own family.
* `mapped_not_lies`: an IPv4-mapped address lies in no entry that is always there.
-/

namespace Daloy.Egress
set_option autoImplicit false

open Daloy.Unicode Daloy.Text Daloy.Json

/-! ## Ranges and readings -/

def Describes (entry : JsString) (net : ParsedIp) (bits : ℕ) : Prop :=
  parseIp (entry.takeWhile (· ≠ slash)) = some net ∧ GivesPrefix entry (8 * net.family.size) bits

def LiesIn (ip net : ParsedIp) (bits : ℕ) : Prop :=
  ip.family = net.family ∧ (bitsOf ip.bytes).take bits = (bitsOf net.bytes).take bits

instance (ip net : ParsedIp) (bits : ℕ) : Decidable (LiesIn ip net bits) :=
  inferInstanceAs (Decidable (_ ∧ _))

def mappedBytes : List UInt8 := List.replicate 10 0 ++ [0xFF, 0xFF]

def mapped (ip : ParsedIp) : ParsedIp :=
  if h : ip.family = .v4 then
    { family := .v6
      bytes := mappedBytes ++ ip.bytes
      sized := by rw [List.length_append, ip.sized, h]; rfl }
  else ip

def readings (ip : ParsedIp) : List ParsedIp := ip :: unmapped ip :: embeddedIPv4s ip

/-! ## Entries and matchers -/

theorem GivesPrefix.unique {pattern : JsString} {total bits bits' : ℕ}
    (h : GivesPrefix pattern total bits) (h' : GivesPrefix pattern total bits') : bits = bits' := by
  have hmem {digits : JsString}
      (heq : pattern = pattern.takeWhile (· ≠ slash) ++ slash :: digits) : slash ∈ pattern := by
    rw [heq]
    simp
  obtain ⟨-, ⟨hnone, rfl⟩ | ⟨digits, heq, -, -, rfl⟩⟩ := h
  · obtain ⟨-, ⟨-, rfl⟩ | ⟨digits, heq, -⟩⟩ := h'
    · rfl
    · exact absurd (hmem heq) hnone
  · obtain ⟨-, ⟨hnone, -⟩ | ⟨digits', heq', -, -, rfl⟩⟩ := h'
    · exact absurd (hmem heq) hnone
    · have hdigits := List.append_cancel_left (heq.symm.trans heq')
      rw [(List.cons.inj hdigits).2]

theorem unmapped_v4 {ip : ParsedIp} (h : ip.family = .v4) : unmapped ip = ip := by
  have hnot : ¬ (ip.family = .v6 ∧ ip.bytes.take 12 = List.replicate 10 0 ++ [0xFF, 0xFF]) := by
    rw [h]
    exact fun hboth => absurd hboth.1 (by decide)
  exact dif_neg hnot

theorem inRange_of_liesIn {net ip r : ParsedIp} {bits : ℕ} (hr : r = ip ∨ r = unmapped ip)
    (hin : LiesIn r net bits) : InRange net bits ip := by
  have hread : readAs net.family ip = r := by
    unfold readAs
    obtain rfl | rfl := hr
    · split
      · rename_i hfamily
        exact unmapped_v4 (hin.1.trans hfamily)
      · rfl
    · split
      · rfl
      · rename_i hfamily
        have hnot : ¬ (unmapped ip).family = .v4 := fun h => hfamily (hin.1.symm.trans h)
        unfold unmapped at hnot ⊢
        split
        · rename_i h
          rw [dif_pos h] at hnot
          exact absurd rfl hnot
        · rfl
  rw [InRange, hread]
  exact hin

theorem Describes.matches {entry : JsString} {m : IpMatcher} {net ip : ParsedIp} {bits : ℕ}
    (hentry : Describes entry net bits) (hm : compileCidrMatcher entry = .ok m) :
    matchesMatcher ip m = true ↔ InRange net bits ip := by
  obtain ⟨net', bits', hnet, hbits, rfl⟩ := compileCidrMatcher_eq_ok hm
  obtain rfl := Option.some.inj (hnet.symm.trans hentry.1)
  obtain rfl := hbits.unique hentry.2
  exact matchesMatcher_iff _ _ _

/-! ## Mapped addresses -/

def meetsMapped (m : IpMatcher) : Bool :=
  m.family = .v6 ∧ (bitsOf m.bytes).take (min m.prefixBits 96) =
    (bitsOf mappedBytes).take m.prefixBits

theorem bitsOf_append (bytes bytes' : List UInt8) :
    bitsOf (bytes ++ bytes') = bitsOf bytes ++ bitsOf bytes' := List.flatMap_append

theorem mapped_not_lies {entry : JsString} {m : IpMatcher} (hmem : entry ∈ alwaysDeny)
    (hm : compileCidrMatcher entry = .ok m) {net ip : ParsedIp} {bits : ℕ}
    (hentry : Describes entry net bits) (hip : ip.family = .v4) :
    ¬ LiesIn (mapped ip) net bits := by
  intro hin
  have hnone : ∀ entry ∈ alwaysDeny,
      (compileCidrMatcher entry).toOption.all (fun m => !meetsMapped m) = true := by
    decide +kernel
  have hmeets : meetsMapped m = false := by
    have hentry := hnone entry hmem
    rw [hm] at hentry
    simpa [Except.toOption] using hentry
  obtain ⟨net', bits', hnet, hbits, rfl⟩ := compileCidrMatcher_eq_ok hm
  obtain rfl := Option.some.inj (hnet.symm.trans hentry.1)
  obtain rfl := hbits.unique hentry.2
  rw [mapped, dif_pos hip] at hin
  obtain ⟨hfamily, htake⟩ := hin
  dsimp only at hfamily htake
  have hlength : (bitsOf mappedBytes).length = 96 := by rw [length_bitsOf]; rfl
  have hsame := congrArg (List.take (min bits' 96)) htake
  rw [bitsOf_append, List.take_take, List.take_take, Nat.min_right_comm, Nat.min_self,
    List.take_append_of_le_length (by rw [hlength]; omega)] at hsame
  have hbound : bits' ≤ (bitsOf net'.bytes).length := by
    rw [length_bitsOf, net'.sized]
    exact hbits.1
  have hmask : (bitsOf (applyPrefixMask net'.bytes bits')).take (min bits' 96) =
      (bitsOf net'.bytes).take (min bits' 96) := by
    rw [bitsOf_applyPrefixMask, List.take_append_of_le_length, List.take_take,
      Nat.min_right_comm, Nat.min_self]
    rw [List.length_take]
    omega
  have hall : (bitsOf mappedBytes).take (min bits' 96) = (bitsOf mappedBytes).take bits' := by
    rw [List.take_eq_take_iff, hlength]
    omega
  rw [meetsMapped, hmask, ← hsame, hall] at hmeets
  simp [hfamily] at hmeets

/-! ## The guard -/

theorem mem_compileAll {ranges : List JsString} {matchers : List IpMatcher}
    (h : compileAll ranges = .ok matchers) {entry : JsString} (hentry : entry ∈ ranges) :
    ∃ m ∈ matchers, compileCidrMatcher entry = .ok m := by
  induction ranges generalizing matchers with
  | nil => cases hentry
  | cons range ranges ih =>
    obtain ⟨m, rest, hm, hrest, rfl⟩ := Fallible.mapM_cons_eq_ok.mp h
    obtain rfl | hentry := List.mem_cons.mp hentry
    · cases hcompile : compileCidrMatcher entry with
      | error e =>
        rw [hcompile] at hm
        cases hm
      | ok m' =>
        rw [hcompile] at hm
        obtain rfl := Except.ok.inj hm
        exact ⟨m', List.mem_cons_self, rfl⟩
    · obtain ⟨m', hmem, hcompile⟩ := ih hrest hentry
      exact ⟨m', List.mem_cons_of_mem _ hmem, hcompile⟩

section Floor

variable [LowerCase]

theorem hardDeny_compiled {rt : Runtime} {options : FetchGuardOptions} {g : FetchGuard}
    (h : fetchGuard rt options = .ok g) :
    compileAll (alwaysDeny ++ options.denyAddresses) = .ok g.hardDenyMatchers := by
  rw [fetchGuard] at h
  obtain ⟨-, h⟩ := Fallible.guard_eq_ok.mp h
  obtain ⟨-, h⟩ := Fallible.guard_eq_ok.mp h
  obtain ⟨-, h⟩ := Fallible.guard_eq_ok.mp h
  obtain ⟨-, h⟩ := Fallible.guard_eq_ok.mp h
  obtain ⟨hard, hhard, h⟩ := Fallible.bind_eq_ok.mp h
  obtain ⟨soft, -, h⟩ := Fallible.bind_eq_ok.mp h
  obtain ⟨allow, -, h⟩ := Fallible.bind_eq_ok.mp h
  obtain rfl := Except.ok.inj h
  exact hhard

/-- **The floor holds for every reading of an address**: no option lets an address through that lies
in an entry, as it is or without its mapping, or that embeds an address that does. For the entries
that are always there this includes the mapped form of an IPv4 address. -/
theorem deny_floor (rt : Runtime) (options : FetchGuardOptions) (g : FetchGuard)
    (ip r net : ParsedIp) (entry : JsString) (bits : ℕ) (hg : fetchGuard rt options = .ok g)
    (hentry : Describes entry net bits) (hin : LiesIn r net bits)
    (hfloor : (r ∈ readings ip ∧ entry ∈ alwaysDeny ++ options.denyAddresses) ∨
      (r = mapped ip ∧ entry ∈ alwaysDeny)) :
    g.isAddressAllowed ip = false := by
  have hmem : entry ∈ alwaysDeny ++ options.denyAddresses := by
    obtain ⟨-, h⟩ | ⟨-, h⟩ := hfloor
    · exact h
    · exact List.mem_append_left _ h
  obtain ⟨m, hmatcher, hm⟩ := mem_compileAll (hardDeny_compiled hg) hmem
  have hmatch {a : ParsedIp} (hr : r = a ∨ r = unmapped a) : matchesMatcher a m = true :=
    (hentry.matches hm).mpr (inRange_of_liesIn hr hin)
  obtain ⟨hreading, -⟩ | ⟨rfl, halways⟩ := hfloor
  · rw [readings, List.mem_cons, List.mem_cons] at hreading
    obtain hself | hself | hembedded := hreading
    · exact FetchGuard.not_isAddressAllowed_hardDeny hmatcher (hmatch (.inl hself)) (.inl rfl)
    · exact FetchGuard.not_isAddressAllowed_hardDeny hmatcher (hmatch (.inr hself)) (.inl rfl)
    · exact FetchGuard.not_isAddressAllowed_hardDeny hmatcher (hmatch (.inl rfl)) (.inr hembedded)
  · cases hfamily : ip.family with
    | v4 => exact absurd hin (mapped_not_lies halways hm hentry hfamily)
    | v6 =>
      have hself : mapped ip = ip := dif_neg (by rw [hfamily]; decide)
      exact FetchGuard.not_isAddressAllowed_hardDeny hmatcher (hmatch (.inl hself)) (.inl rfl)

end Floor

/-! ## Entries of mapped addresses -/

def mappedOptions : FetchGuardOptions where
  denyAddresses := [js "::ffff:10.1.2.3"]
  allowPrivate := true

def mappedGuard : FetchGuard :=
  (@fetchGuard latinLower exampleRuntime mappedOptions).toOption.get (by decide +kernel)

def mappedEntry : JsString := js "::ffff:10.1.2.3"

def mappedAddress : ParsedIp := (parseIp mappedEntry).get (by decide +kernel)

def plainAddress : ParsedIp := (parseIp (js "10.1.2.3")).get (by decide +kernel)

theorem mappedEntry_describes : Describes mappedEntry mappedAddress 128 := by
  have hentry : mappedEntry.takeWhile (· ≠ slash) = mappedEntry := by decide
  refine ⟨?_, by decide +kernel, .inl ⟨by decide, by decide +kernel⟩⟩
  rw [hentry]
  exact (Option.some_get _).symm

theorem deny_floor_mapped : mappedGuard.isAddressAllowed mappedAddress = false :=
  @deny_floor latinLower exampleRuntime mappedOptions mappedGuard mappedAddress mappedAddress
    mappedAddress mappedEntry 128 (ok_of_isSome _) mappedEntry_describes (by decide +kernel)
    (.inl ⟨List.mem_cons_self, by decide +kernel⟩)

/-- `10.1.2.3` is, although its mapped form is the address of the entry. -/
theorem mapped_entry_misses :
    @fetchGuard latinLower exampleRuntime mappedOptions = .ok mappedGuard ∧
      mappedEntry ∈ mappedOptions.denyAddresses ∧ Describes mappedEntry mappedAddress 128 ∧
      parseIp (js "10.1.2.3") = some plainAddress ∧ LiesIn (mapped plainAddress) mappedAddress 128 ∧
      mappedGuard.isAddressAllowed plainAddress = true :=
  ⟨ok_of_isSome _, by decide, mappedEntry_describes, (Option.some_get _).symm, by decide +kernel,
    by decide +kernel⟩

end Daloy.Egress
