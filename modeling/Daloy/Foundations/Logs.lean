import Mathlib.Tactic.Common

/-! # Logs whose entries are justified by what came before

Nothing here mentions a program. `Justified P log` says that each entry of a log stands in the
relation `P` to the entries in front of it.
-/

namespace Daloy
set_option autoImplicit false

variable {ε : Type} {P : ε → List ε → Prop}

def Justified (P : ε → List ε → Prop) (log : List ε) : Prop :=
  ∀ before e after, log = before ++ e :: after → P e before

namespace Justified

theorem nil : Justified P [] := by
  intro before e after h
  simp at h

theorem append {log entries : List ε} (h : Justified P log)
    (hnew : Justified (fun e before => P e (log ++ before)) entries) :
    Justified P (log ++ entries) := by
  intro before e after heq
  rcases List.append_eq_append_iff.mp heq with ⟨mid, rfl, hmid⟩ | ⟨mid, hlog, hmid⟩
  · exact hnew mid e after hmid
  · cases mid with
    | nil =>
      have h' : P e (log ++ []) := hnew [] e after hmid.symm
      rwa [hlog, List.append_nil, List.append_nil] at h'
    | cons e' mid =>
      obtain ⟨rfl, -⟩ := List.cons.inj hmid
      exact h before e mid hlog

theorem concat {log : List ε} {e : ε} (h : Justified P log) (he : P e log) :
    Justified P (log ++ [e]) := by
  apply h.append
  intro before e' after heq
  cases before with
  | nil =>
    obtain ⟨rfl, -⟩ := List.cons.inj heq
    rwa [List.append_nil]
  | cons b before => simp at heq

theorem of_append {log entries : List ε} (h : Justified P (log ++ entries)) : Justified P log := by
  intro before e after heq
  apply h before e (after ++ entries)
  rw [heq, List.append_assoc, List.cons_append]

theorem last {log entries : List ε} {e : ε} (h : Justified P (log ++ e :: entries)) : P e log :=
  h log e entries rfl

theorem getElem {log : List ε} (h : Justified P log) {i : ℕ} (hi : i < log.length) :
    P log[i] (log.take i) :=
  h (log.take i) log[i] (log.drop (i + 1))
    (by rw [← List.drop_eq_getElem_cons hi, List.take_append_drop])

end Justified

end Daloy
