import Daloy.Foundations.Text

/-! # Searching for a pattern

Patterns without back references: classes of code units, white space, bounded repetitions and word
boundaries. Nothing here mentions a program.

* `test`: whether a pattern is found anywhere in a text, by backtracking. `Matches`: what a match is.
* `leftSafe`, `rightSafe`: what can be computed of a pattern for its matches to stay matches at the
  edge of a text, where a boundary loses the unit beside it.
-/

namespace Daloy.SearchPatterns
set_option autoImplicit false

open Daloy.Unicode Daloy.Text

/-! ## Patterns -/

/-- `\w`. -/
def isWordUnit (u : UInt16) : Bool :=
  (0x30 ≤ u.toNat && u.toNat ≤ 0x39) || (0x41 ≤ u.toNat && u.toNat ≤ 0x5A) || u == 0x5F ||
    (0x61 ≤ u.toNat && u.toNat ≤ 0x7A)

def foldUnit (u : UInt16) : UInt16 := if 0x41 ≤ u.toNat ∧ u.toNat ≤ 0x5A then u + 0x20 else u

inductive CharClass
  /-- A unit in any case. -/
  | letter (u : UInt16)
  /-- `\d`. -/
  | digit
  /-- `\w`. -/
  | word
  /-- `\s`. -/
  | space
  /-- `\S`. -/
  | notSpace
  | any
  | among (us : List UInt16)
  | except (u : UInt16)

def CharClass.holds : CharClass → UInt16 → Bool
  | .letter u, v => foldUnit v = foldUnit u
  | .digit, v => 0x30 ≤ v.toNat && v.toNat ≤ 0x39
  | .word, v => isWordUnit v
  | .space, v => isWhitespace v
  | .notSpace, v => !isWhitespace v
  | .any, _ => true
  | .among us, v => v ∈ us
  | .except u, v => v ≠ u

inductive Pattern
  | empty
  | one (c : CharClass)
  /-- `\b`. -/
  | boundary
  /-- `\s` this often or more. -/
  | spaces (least : ℕ)
  /-- A class this often. -/
  | upTo (c : CharClass) (least most : ℕ)
  | seq (p q : Pattern)
  | alt (p q : Pattern)

namespace Pattern

def text : JsString → Pattern
  | [] => empty
  | [u] => one (.letter u)
  | u :: rest => seq (one (.letter u)) (text rest)

def all : List Pattern → Pattern
  | [] => empty
  | [p] => p
  | p :: rest => seq p (all rest)

/-- `(?:p|q|…)`. -/
def anyOf : List Pattern → Pattern
  | [] => one (.among [])
  | [p] => p
  | p :: rest => alt p (anyOf rest)

/-- `[us]?`. -/
def maybe (us : JsString) : Pattern := upTo (.among us) 0 1

end Pattern

def wordAt : Option UInt16 → Bool
  | some u => isWordUnit u
  | none => false

/-- The unit in front of what follows `m`. -/
def lastOf (prev : Option UInt16) (m : JsString) : Option UInt16 := m.getLast?.or prev

/-! ## The search -/

/-- White space, before what `k` reads. -/
def readSpaces (k : Option UInt16 → JsString → Bool) : ℕ → Option UInt16 → JsString → Bool
  | least, prev, [] => least = 0 && k prev []
  | least, prev, u :: rest =>
    (least = 0 && k prev (u :: rest)) || (isWhitespace u && readSpaces k (least - 1) (some u) rest)

/-- Units of a class, before what `k` reads. -/
def readUpTo (c : CharClass) (k : Option UInt16 → JsString → Bool) :
    ℕ → ℕ → Option UInt16 → JsString → Bool
  | least, 0, prev, s => least = 0 && k prev s
  | least, most + 1, prev, s =>
    (least = 0 && k prev s) ||
      match s with
      | u :: rest => c.holds u && readUpTo c k (least - 1) most (some u) rest
      | [] => false

/-- The pattern at the front of a text, before what `k` reads. -/
def Pattern.reads : Pattern → (Option UInt16 → JsString → Bool) → Option UInt16 → JsString → Bool
  | .empty, k, prev, s => k prev s
  | .one c, k, _, s =>
    match s with
    | u :: rest => c.holds u && k (some u) rest
    | [] => false
  | .boundary, k, prev, s => wordAt prev != wordAt s.head? && k prev s
  | .spaces least, k, prev, s => readSpaces k least prev s
  | .upTo c least most, k, prev, s => readUpTo c k least most prev s
  | .seq p q, k, prev, s => p.reads (fun prev s => q.reads k prev s) prev s
  | .alt p q, k, prev, s => p.reads k prev s || q.reads k prev s

def Pattern.testFrom (p : Pattern) : Option UInt16 → JsString → Bool
  | prev, [] => p.reads (fun _ _ => true) prev []
  | prev, u :: rest => p.reads (fun _ _ => true) prev (u :: rest) || p.testFrom (some u) rest

def Pattern.test (p : Pattern) (s : JsString) : Bool := p.testFrom none s

/-- A match `m`, between a unit in front and what follows. -/
def Matches : Pattern → Option UInt16 → JsString → JsString → Prop
  | .empty, _, m, _ => m = []
  | .one c, _, m, _ => ∃ u, m = [u] ∧ c.holds u = true
  | .boundary, prev, m, post => m = [] ∧ wordAt prev ≠ wordAt post.head?
  | .spaces least, _, m, _ => (∀ u ∈ m, isWhitespace u = true) ∧ least ≤ m.length
  | .upTo c least most, _, m, _ => (∀ u ∈ m, c.holds u = true) ∧ least ≤ m.length ∧ m.length ≤ most
  | .seq p q, prev, m, post =>
    ∃ m₁ m₂, m = m₁ ++ m₂ ∧ Matches p prev m₁ (m₂ ++ post) ∧ Matches q (lastOf prev m₁) m₂ post
  | .alt p q, prev, m, post => Matches p prev m post ∨ Matches q prev m post

@[simp] theorem lastOf_nil (prev : Option UInt16) : lastOf prev [] = prev := rfl

theorem lastOf_cons (prev : Option UInt16) (u : UInt16) (m : JsString) :
    lastOf prev (u :: m) = lastOf (some u) m := by
  rw [lastOf, lastOf, List.getLast?_cons]
  cases m.getLast? <;> rfl

theorem lastOf_append (prev : Option UInt16) (m₁ m₂ : JsString) :
    lastOf prev (m₁ ++ m₂) = lastOf (lastOf prev m₁) m₂ := by
  rw [lastOf, lastOf, lastOf, List.getLast?_append, Option.or_assoc]

theorem lastOf_of_ne_nil {m : JsString} (h : m ≠ []) (prev prev' : Option UInt16) :
    lastOf prev m = lastOf prev' m := by
  obtain ⟨u, m, rfl⟩ := List.exists_cons_of_ne_nil h
  rw [lastOf_cons, lastOf_cons]

theorem readSpaces_iff (k : Option UInt16 → JsString → Bool) (least : ℕ) (prev : Option UInt16)
    (s : JsString) :
    readSpaces k least prev s = true ↔ ∃ m post, s = m ++ post ∧
      ((∀ u ∈ m, isWhitespace u = true) ∧ least ≤ m.length) ∧ k (lastOf prev m) post = true := by
  induction s generalizing least prev with
  | nil =>
    rw [readSpaces]
    constructor
    · intro h
      rw [Bool.and_eq_true, decide_eq_true_eq] at h
      exact ⟨[], [], rfl, ⟨by simp, by simp [h.1]⟩, h.2⟩
    · rintro ⟨m, post, hs, ⟨-, hleast⟩, hk⟩
      obtain ⟨rfl, rfl⟩ := List.append_eq_nil_iff.mp hs.symm
      obtain rfl : least = 0 := by simpa using hleast
      exact hk
  | cons u rest ih =>
    rw [readSpaces, Bool.or_eq_true, Bool.and_eq_true, Bool.and_eq_true, ih, decide_eq_true_eq]
    constructor
    · rintro (⟨rfl, hk⟩ | ⟨hu, m, post, rfl, ⟨hall, hleast⟩, hk⟩)
      · exact ⟨[], u :: rest, rfl, ⟨by simp, Nat.zero_le _⟩, hk⟩
      · refine ⟨u :: m, post, rfl, ⟨?_, ?_⟩, ?_⟩
        · rw [List.forall_mem_cons]
          exact ⟨hu, hall⟩
        · rw [List.length_cons]
          omega
        · rwa [lastOf_cons]
    · rintro ⟨m, post, hs, ⟨hall, hleast⟩, hk⟩
      cases m with
      | nil =>
        rw [List.nil_append] at hs
        exact .inl ⟨by simpa using hleast, by rw [hs]; exact hk⟩
      | cons v m =>
        obtain ⟨rfl, rfl⟩ := List.cons.inj hs
        rw [List.forall_mem_cons] at hall
        rw [List.length_cons] at hleast
        refine .inr ⟨hall.1, m, post, rfl, ⟨hall.2, by omega⟩, ?_⟩
        rwa [lastOf_cons] at hk

theorem readUpTo_iff (c : CharClass) (k : Option UInt16 → JsString → Bool) (least most : ℕ)
    (prev : Option UInt16) (s : JsString) :
    readUpTo c k least most prev s = true ↔ ∃ m post, s = m ++ post ∧
      ((∀ u ∈ m, c.holds u = true) ∧ least ≤ m.length ∧ m.length ≤ most) ∧
        k (lastOf prev m) post = true := by
  induction most generalizing least prev s with
  | zero =>
    rw [readUpTo, Bool.and_eq_true, decide_eq_true_eq]
    constructor
    · rintro ⟨rfl, hk⟩
      exact ⟨[], s, rfl, ⟨by simp, Nat.le_refl 0, Nat.le_refl 0⟩, hk⟩
    · rintro ⟨m, post, rfl, ⟨-, hleast, hmost⟩, hk⟩
      obtain rfl := List.length_eq_zero_iff.mp (Nat.le_zero.mp hmost)
      exact ⟨by simpa using hleast, hk⟩
  | succ most ih =>
    rw [readUpTo.eq_def]
    dsimp only
    rw [Bool.or_eq_true, Bool.and_eq_true, decide_eq_true_eq]
    constructor
    · rintro (⟨rfl, hk⟩ | hmore)
      · exact ⟨[], s, rfl, ⟨by simp, Nat.le_refl 0, Nat.zero_le _⟩, hk⟩
      · cases s with
        | nil => cases hmore
        | cons u rest =>
          rw [Bool.and_eq_true, ih] at hmore
          obtain ⟨hu, m, post, rfl, ⟨hall, hleast, hmost⟩, hk⟩ := hmore
          refine ⟨u :: m, post, rfl, ⟨?_, ?_, ?_⟩, ?_⟩
          · rw [List.forall_mem_cons]
            exact ⟨hu, hall⟩
          · rw [List.length_cons]
            omega
          · rw [List.length_cons]
            omega
          · rwa [lastOf_cons]
    · rintro ⟨m, post, rfl, ⟨hall, hleast, hmost⟩, hk⟩
      cases m with
      | nil => exact .inl ⟨by simpa using hleast, hk⟩
      | cons u m =>
        rw [List.forall_mem_cons] at hall
        rw [List.length_cons] at hleast hmost
        refine .inr ?_
        rw [List.cons_append, Bool.and_eq_true, ih]
        refine ⟨hall.1, m, post, rfl, ⟨hall.2, by omega, by omega⟩, ?_⟩
        rwa [lastOf_cons] at hk

theorem reads_iff (p : Pattern) (k : Option UInt16 → JsString → Bool) (prev : Option UInt16)
    (s : JsString) :
    p.reads k prev s = true ↔
      ∃ m post, s = m ++ post ∧ Matches p prev m post ∧ k (lastOf prev m) post = true := by
  induction p generalizing k prev s with
  | empty =>
    rw [Pattern.reads]
    constructor
    · intro hk
      exact ⟨[], s, rfl, rfl, hk⟩
    · rintro ⟨m, post, rfl, hm, hk⟩
      obtain rfl : m = [] := hm
      exact hk
  | one c =>
    rw [Pattern.reads.eq_def]
    dsimp only
    cases s with
    | nil =>
      refine iff_of_false Bool.false_ne_true ?_
      rintro ⟨m, post, hs, ⟨u, rfl, -⟩, -⟩
      cases hs
    | cons u rest =>
      rw [Bool.and_eq_true]
      constructor
      · rintro ⟨hu, hk⟩
        exact ⟨[u], rest, rfl, ⟨u, rfl, hu⟩, hk⟩
      · rintro ⟨m, post, hs, ⟨v, rfl, hv⟩, hk⟩
        obtain ⟨rfl, rfl⟩ := List.cons.inj hs
        exact ⟨hv, hk⟩
  | boundary =>
    rw [Pattern.reads, Bool.and_eq_true, bne_iff_ne]
    constructor
    · rintro ⟨hb, hk⟩
      exact ⟨[], s, rfl, ⟨rfl, hb⟩, hk⟩
    · rintro ⟨m, post, rfl, ⟨rfl, hb⟩, hk⟩
      exact ⟨hb, hk⟩
  | spaces least => exact readSpaces_iff k least prev s
  | upTo c least most => exact readUpTo_iff c k least most prev s
  | seq p q ihp ihq =>
    rw [Pattern.reads, ihp]
    constructor
    · rintro ⟨m₁, rest, rfl, hp, hq⟩
      obtain ⟨m₂, post, rfl, hq, hk⟩ := (ihq _ _ _).mp hq
      refine ⟨m₁ ++ m₂, post, (List.append_assoc _ _ _).symm, ⟨m₁, m₂, rfl, hp, hq⟩, ?_⟩
      rwa [lastOf_append]
    · rintro ⟨m, post, rfl, ⟨m₁, m₂, rfl, hp, hq⟩, hk⟩
      refine ⟨m₁, m₂ ++ post, List.append_assoc _ _ _, hp, (ihq _ _ _).mpr ⟨m₂, post, rfl, hq, ?_⟩⟩
      rwa [lastOf_append] at hk
  | alt p q ihp ihq =>
    rw [Pattern.reads, Bool.or_eq_true, ihp, ihq]
    constructor
    · rintro (⟨m, post, hs, hm, hk⟩ | ⟨m, post, hs, hm, hk⟩)
      · exact ⟨m, post, hs, .inl hm, hk⟩
      · exact ⟨m, post, hs, .inr hm, hk⟩
    · rintro ⟨m, post, hs, hm | hm, hk⟩
      · exact .inl ⟨m, post, hs, hm, hk⟩
      · exact .inr ⟨m, post, hs, hm, hk⟩

theorem testFrom_iff (p : Pattern) (prev : Option UInt16) (s : JsString) :
    p.testFrom prev s = true ↔
      ∃ front m post, s = front ++ (m ++ post) ∧ Matches p (lastOf prev front) m post := by
  have hhere : ∀ prev s, p.reads (fun _ _ => true) prev s = true ↔
      ∃ m post, s = m ++ post ∧ Matches p prev m post := by
    intro prev s
    simp [reads_iff]
  induction s generalizing prev with
  | nil =>
    rw [Pattern.testFrom, hhere]
    constructor
    · rintro ⟨m, post, hs, hm⟩
      exact ⟨[], m, post, hs, hm⟩
    · rintro ⟨front, m, post, hs, hm⟩
      obtain ⟨rfl, hnil⟩ := List.append_eq_nil_iff.mp hs.symm
      exact ⟨m, post, hnil.symm, hm⟩
  | cons u rest ih =>
    rw [Pattern.testFrom, Bool.or_eq_true, hhere]
    constructor
    · rintro (⟨m, post, hs, hm⟩ | hrest)
      · exact ⟨[], m, post, hs, hm⟩
      · obtain ⟨front, m, post, rfl, hm⟩ := (ih (some u)).mp hrest
        exact ⟨u :: front, m, post, rfl, by rwa [lastOf_cons]⟩
    · rintro ⟨front, m, post, hs, hm⟩
      cases front with
      | nil => exact .inl ⟨m, post, hs, hm⟩
      | cons v front =>
        obtain ⟨rfl, rfl⟩ := List.cons.inj hs
        exact .inr ((ih (some u)).mpr ⟨front, m, post, rfl, by rwa [lastOf_cons] at hm⟩)

theorem test_iff (p : Pattern) (s : JsString) :
    p.test s = true ↔
      ∃ front m post, s = front ++ (m ++ post) ∧ Matches p front.getLast? m post := by
  rw [Pattern.test, testFrom_iff]
  simp only [lastOf, Option.or_none]

/-! ## What a match depends on -/

theorem matches_congr_post {p : Pattern} {prev : Option UInt16} {m post post' : JsString}
    (hhead : post.head? = post'.head?) (h : Matches p prev m post) : Matches p prev m post' := by
  induction p generalizing prev m post post' with
  | boundary =>
    rw [Matches] at h ⊢
    rwa [← hhead]
  | seq p q ihp ihq =>
    obtain ⟨m₁, m₂, rfl, hp, hq⟩ := h
    refine ⟨m₁, m₂, rfl, ihp ?_ hp, ihq hhead hq⟩
    rw [List.head?_append, List.head?_append, hhead]
  | alt p q ihp ihq =>
    obtain hp | hq := h
    · exact .inl (ihp hhead hp)
    · exact .inr (ihq hhead hq)
  | empty => exact h
  | one c => exact h
  | spaces least => exact h
  | upTo c least most => exact h

namespace CharClass

def isWord : CharClass → Bool
  | letter u => isWordUnit u
  | digit => true
  | word => true
  | among us => us.all isWordUnit
  | _ => false

def meetsSpace : CharClass → Bool
  | letter u => isWhitespace u
  | space => true
  | any => true
  | among us => us.any isWhitespace
  | except _ => true
  | _ => false

end CharClass

theorem isWordUnit_foldUnit (u : UInt16) : isWordUnit (foldUnit u) = isWordUnit u := by
  rw [foldUnit]
  split
  · rename_i h
    have hadd : (u + 0x20).toNat = u.toNat + 0x20 := by
      have hwidth : (0x20 : UInt16).toNat = 0x20 := rfl
      rw [UInt16.toNat_add, hwidth]
      exact Nat.mod_eq_of_lt (by omega)
    have hcapital : isWordUnit u = true := by
      simp only [isWordUnit, Bool.or_eq_true, Bool.and_eq_true, decide_eq_true_eq]
      exact .inl (.inl (.inr h))
    have hsmall : isWordUnit (u + 0x20) = true := by
      simp only [isWordUnit, hadd, Bool.or_eq_true, Bool.and_eq_true, decide_eq_true_eq]
      exact .inr ⟨by omega, by omega⟩
    rw [hcapital, hsmall]
  · rfl

theorem CharClass.isWordUnit_of_holds {c : CharClass} (hc : c.isWord = true) {u : UInt16}
    (h : c.holds u = true) : isWordUnit u = true := by
  cases c with
  | letter v =>
    rw [holds, decide_eq_true_eq] at h
    rw [← isWordUnit_foldUnit, h, isWordUnit_foldUnit]
    exact hc
  | digit =>
    rw [holds] at h
    rw [isWordUnit, h]
    rfl
  | word => exact h
  | among us =>
    rw [holds, decide_eq_true_eq] at h
    exact List.all_eq_true.mp hc u h
  | space => cases hc
  | notSpace => cases hc
  | any => cases hc
  | except v => cases hc

namespace Pattern

def consumes : Pattern → Bool
  | one _ => true
  | spaces least => 0 < least
  | upTo _ least _ => 0 < least
  | seq p q => p.consumes || q.consumes
  | alt p q => p.consumes && q.consumes
  | _ => false

def firstWord : Pattern → Bool
  | one c => c.isWord
  | upTo c least _ => 0 < least && c.isWord
  | seq boundary q => q.firstWord
  | seq p _ => p.firstWord
  | alt p q => p.firstWord && q.firstWord
  | _ => false

def lastWord : Pattern → Bool
  | one c => c.isWord
  | upTo c least _ => 0 < least && c.isWord
  | seq p boundary => p.lastWord
  | seq _ q => q.lastWord
  | alt p q => p.lastWord && q.lastWord
  | _ => false

def leftSafe : Pattern → Bool
  | boundary => false
  | seq boundary q => q.firstWord && q.leftSafe
  | seq p q => p.leftSafe && (p.consumes || q.leftSafe)
  | alt p q => p.leftSafe && q.leftSafe
  | _ => true

def rightSafe : Pattern → Bool
  | boundary => false
  | seq p boundary => p.lastWord && p.rightSafe
  | seq p q => q.rightSafe && (q.consumes || p.rightSafe)
  | alt p q => p.rightSafe && q.rightSafe
  | _ => true

end Pattern

/-! ## Edges -/

theorem firstWord_matches {p : Pattern} (hp : p.firstWord = true) {prev : Option UInt16}
    {m post : JsString} (h : Matches p prev m post) : wordAt m.head? = true := by
  induction p generalizing prev m post with
  | one c =>
    obtain ⟨u, rfl, hu⟩ := h
    exact c.isWordUnit_of_holds hp hu
  | upTo c least most =>
    rw [Pattern.firstWord, Bool.and_eq_true, decide_eq_true_eq] at hp
    obtain ⟨hall, hleast, -⟩ := h
    obtain ⟨u, m, rfl⟩ := List.exists_cons_of_length_pos (Nat.lt_of_lt_of_le hp.1 hleast)
    exact c.isWordUnit_of_holds hp.2 (hall u (List.mem_cons_self ..))
  | seq p q ihp ihq =>
    obtain ⟨m₁, m₂, rfl, hm₁, hm₂⟩ := h
    have hfront : p.firstWord = true → wordAt (m₁ ++ m₂).head? = true := by
      intro hp
      have hword := ihp hp hm₁
      cases m₁ with
      | nil => cases hword
      | cons u m₁ => exact hword
    cases p with
    | boundary =>
      obtain ⟨rfl, -⟩ := hm₁
      exact ihq hp hm₂
    | _ => exact hfront hp
  | alt p q ihp ihq =>
    rw [Pattern.firstWord, Bool.and_eq_true] at hp
    obtain h | h := h
    · exact ihp hp.1 h
    · exact ihq hp.2 h
  | empty => cases hp
  | boundary => cases hp
  | spaces least => cases hp

theorem lastWord_matches {p : Pattern} (hp : p.lastWord = true) {prev : Option UInt16}
    {m post : JsString} (h : Matches p prev m post) : wordAt m.getLast? = true := by
  induction p generalizing prev m post with
  | one c =>
    obtain ⟨u, rfl, hu⟩ := h
    exact c.isWordUnit_of_holds hp hu
  | upTo c least most =>
    rw [Pattern.lastWord, Bool.and_eq_true, decide_eq_true_eq] at hp
    obtain ⟨hall, hleast, -⟩ := h
    have hne : m ≠ [] := List.ne_nil_of_length_pos (Nat.lt_of_lt_of_le hp.1 hleast)
    rw [List.getLast?_eq_getLast_of_ne_nil hne]
    exact c.isWordUnit_of_holds hp.2 (hall _ (List.getLast_mem hne))
  | seq p q ihp ihq =>
    obtain ⟨m₁, m₂, rfl, hm₁, hm₂⟩ := h
    have hback : q.lastWord = true → wordAt (m₁ ++ m₂).getLast? = true := by
      intro hq
      have hword := ihq hq hm₂
      rw [List.getLast?_append]
      cases hlast : m₂.getLast? with
      | none =>
        rw [hlast] at hword
        cases hword
      | some u =>
        rw [hlast] at hword
        exact hword
    cases q with
    | boundary =>
      obtain ⟨rfl, -⟩ := hm₂
      rw [List.append_nil]
      exact ihp hp hm₁
    | _ => exact hback hp
  | alt p q ihp ihq =>
    rw [Pattern.lastWord, Bool.and_eq_true] at hp
    obtain h | h := h
    · exact ihp hp.1 h
    · exact ihq hp.2 h
  | empty => cases hp
  | boundary => cases hp
  | spaces least => cases hp

theorem consumes_matches {p : Pattern} (hp : p.consumes = true) {prev : Option UInt16}
    {m post : JsString} (h : Matches p prev m post) : m ≠ [] := by
  induction p generalizing prev m post with
  | one c =>
    obtain ⟨u, rfl, -⟩ := h
    exact List.cons_ne_nil _ _
  | spaces least =>
    rw [Pattern.consumes, decide_eq_true_eq] at hp
    exact List.ne_nil_of_length_pos (Nat.lt_of_lt_of_le hp h.2)
  | upTo c least most =>
    rw [Pattern.consumes, decide_eq_true_eq] at hp
    exact List.ne_nil_of_length_pos (Nat.lt_of_lt_of_le hp h.2.1)
  | seq p q ihp ihq =>
    rw [Pattern.consumes, Bool.or_eq_true] at hp
    obtain ⟨m₁, m₂, rfl, hm₁, hm₂⟩ := h
    rw [ne_eq, List.append_eq_nil_iff, not_and_or]
    obtain hp | hq := hp
    · exact .inl (ihp hp hm₁)
    · exact .inr (ihq hq hm₂)
  | alt p q ihp ihq =>
    rw [Pattern.consumes, Bool.and_eq_true] at hp
    obtain h | h := h
    · exact ihp hp.1 h
    · exact ihq hp.2 h
  | empty => cases hp
  | boundary => cases hp

theorem leftSafe_matches {p : Pattern} (hp : p.leftSafe = true) {prev : Option UInt16}
    {m post : JsString} (h : Matches p prev m post) : Matches p none m post := by
  induction p generalizing prev m post with
  | boundary => cases hp
  | seq p q ihp ihq =>
    obtain ⟨m₁, m₂, rfl, hm₁, hm₂⟩ := h
    have hgeneral : (p.leftSafe && (p.consumes || q.leftSafe)) = true →
        Matches (.seq p q) none (m₁ ++ m₂) post := by
      intro hsafe
      rw [Bool.and_eq_true] at hsafe
      obtain ⟨hsafe, hrest⟩ := hsafe
      refine ⟨m₁, m₂, rfl, ihp hsafe hm₁, ?_⟩
      obtain rfl | hne := eq_or_ne m₁ []
      · rw [Bool.or_eq_true] at hrest
        obtain hconsumes | hq := hrest
        · exact absurd rfl (consumes_matches hconsumes hm₁)
        · exact ihq hq hm₂
      · rwa [lastOf_of_ne_nil hne none prev]
    cases p with
    | boundary =>
      rw [Pattern.leftSafe, Bool.and_eq_true] at hp
      obtain ⟨rfl, hboundary⟩ := hm₁
      have hq := ihq hp.2 hm₂
      have hhead := firstWord_matches hp.1 hq
      refine ⟨[], m₂, rfl, ⟨rfl, ?_⟩, hq⟩
      cases m₂ with
      | nil => cases hhead
      | cons u m₂ =>
        rw [List.cons_append, List.head?_cons]
        rw [List.head?_cons] at hhead
        rw [hhead]
        decide
    | _ => exact hgeneral hp
  | alt p q ihp ihq =>
    rw [Pattern.leftSafe, Bool.and_eq_true] at hp
    obtain h | h := h
    · exact .inl (ihp hp.1 h)
    · exact .inr (ihq hp.2 h)
  | empty => exact h
  | one c => exact h
  | spaces least => exact h
  | upTo c least most => exact h

theorem rightSafe_matches {p : Pattern} (hp : p.rightSafe = true) {prev : Option UInt16}
    {m post post' : JsString} (hpost : post' <+: post) (h : Matches p prev m post) :
    Matches p prev m post' := by
  induction p generalizing prev m post post' with
  | boundary => cases hp
  | seq p q ihp ihq =>
    obtain ⟨m₁, m₂, rfl, hm₁, hm₂⟩ := h
    have hgeneral : (q.rightSafe && (q.consumes || p.rightSafe)) = true →
        Matches (.seq p q) prev (m₁ ++ m₂) post' := by
      intro hsafe
      rw [Bool.and_eq_true] at hsafe
      obtain ⟨hsafe, hrest⟩ := hsafe
      refine ⟨m₁, m₂, rfl, ?_, ihq hsafe hpost hm₂⟩
      obtain rfl | hne := eq_or_ne m₂ []
      · rw [Bool.or_eq_true] at hrest
        obtain hconsumes | hp := hrest
        · exact absurd rfl (consumes_matches hconsumes hm₂)
        · exact ihp hp hpost hm₁
      · obtain ⟨u, m₂, rfl⟩ := List.exists_cons_of_ne_nil hne
        refine matches_congr_post ?_ hm₁
        rfl
    cases q with
    | boundary =>
      rw [Pattern.rightSafe, Bool.and_eq_true] at hp
      obtain ⟨rfl, hboundary⟩ := hm₂
      have hlast := lastWord_matches hp.1 hm₁
      refine ⟨m₁, [], rfl, ihp hp.2 hpost hm₁, rfl, ?_⟩
      have hword : wordAt (lastOf prev m₁) = true := by
        rw [lastOf]
        cases hgot : m₁.getLast? with
        | none =>
          rw [hgot] at hlast
          cases hlast
        | some u =>
          rw [hgot] at hlast
          exact hlast
      rw [hword] at hboundary ⊢
      cases post' with
      | nil => decide
      | cons u post' =>
        obtain ⟨rest, rfl⟩ := hpost
        exact hboundary
    | _ => exact hgeneral hp
  | alt p q ihp ihq =>
    rw [Pattern.rightSafe, Bool.and_eq_true] at hp
    obtain h | h := h
    · exact .inl (ihp hp.1 hpost h)
    · exact .inr (ihq hp.2 hpost h)
  | empty => exact h
  | one c => exact h
  | spaces least => exact h
  | upTo c least most => exact h

end Daloy.SearchPatterns
