import AlgebraicForm.DigitLimit
import AlgebraicForm.Proofs.Computation

/-!
# Computations under a limit

A limit for the digits of whole numbers changes nothing about a computation but that it may stop it,
with a fault that only a limit raises.

* `DigitLimit.Stops`: the limit stops a computation.
* `DigitLimit.Gives`: a computation has a result of some kind, unless the limit stops it.
* `DigitLimit.Restricts`: a computation is another one, unless the limit stops it.

Each of the two last ones has a rule for `bind` and one for `mapM`, so that it goes along a
computation step by step. Without a limit nothing is stopped.
-/

namespace AlgebraicForm

namespace DigitLimit

variable {limit : DigitLimit} {α β : Type}

/-- Whether so many digits are allowed. -/
def Allows (limit : DigitLimit) (count : Nat) : Prop :=
  ∀ n ∈ limit.max?, count ≤ n

/-- The faults that the limit raises. -/
def Raises (limit : DigitLimit) (fault : Fault) : Prop :=
  ∃ n ∈ limit.max?, ∃ found, fault = .tooManyDigits n found

/-- The limit stops a computation. -/
def Stops (limit : DigitLimit) (x : Except Fault α) : Prop :=
  ∃ fault, limit.Raises fault ∧ x = .error fault

theorem allows_unlimited (count : Nat) : unlimited.Allows count :=
  nofun

/-- There is always room for numbers that are not long. -/
theorem allows_of_le {count : Nat} (h : count ≤ 640) : limit.Allows count :=
  fun n hn => h.trans (limit.room n hn)

theorem not_raises_unlimited {fault : Fault} : ¬unlimited.Raises fault := by
  rintro ⟨n, hn, -⟩
  exact nomatch hn

theorem not_stops_unlimited {x : Except Fault α} : ¬unlimited.Stops x := by
  rintro ⟨fault, hfault, -⟩
  exact not_raises_unlimited hfault

@[simp] theorem not_stops_ok {a : α} : ¬limit.Stops (.ok a : Except Fault α) := by
  rintro ⟨fault, -, h⟩
  exact nomatch h

theorem stops_error_iff {fault : Fault} :
    limit.Stops (.error fault : Except Fault α) ↔ limit.Raises fault := by
  refine ⟨?_, fun h => ⟨fault, h, rfl⟩⟩
  rintro ⟨fault', h, heq⟩
  rwa [Except.error.inj heq]

/-- What stops is malformed in no way. -/
theorem Raises.ne_malformed {fault : Fault} (h : limit.Raises fault) (e : ParseError) :
    fault ≠ .malformed e := by
  obtain ⟨n, -, found, rfl⟩ := h
  exact nofun

theorem Stops.bind {x : Except Fault α} (h : limit.Stops x) (f : α → Except Fault β) :
    limit.Stops (x >>= f) := by
  obtain ⟨fault, hfault, rfl⟩ := h
  exact ⟨fault, hfault, rfl⟩

theorem check_eq_ok_iff {count : Nat} {found : Option Nat} :
    limit.check count found = .ok () ↔ limit.Allows count := by
  unfold check Allows
  cases limit.max? with
  | none => simp
  | some n =>
    simp only [Option.mem_some_iff, forall_eq']
    split <;> simp_all

theorem check_bind_eq_ok_iff {count : Nat} {found : Option Nat} {f : Unit → Except Fault α}
    {a : α} :
    (limit.check count found >>= f) = .ok a ↔ limit.Allows count ∧ f () = .ok a := by
  rw [bind_eq_ok_iff, ← @check_eq_ok_iff limit count found]
  exact ⟨fun ⟨_, h, ha⟩ => ⟨h, ha⟩, fun ⟨h, ha⟩ => ⟨(), h, ha⟩⟩

theorem check_or_stops (limit : DigitLimit) (count : Nat) (found : Option Nat) :
    limit.check count found = .ok () ∨ limit.Stops (limit.check count found) := by
  unfold check
  split
  next => exact .inl rfl
  next n hn =>
    split
    next => exact .inl rfl
    next => exact .inr ⟨_, ⟨n, hn, found, rfl⟩, rfl⟩

/-! ## Results up to the limit -/

/-- A computation has a result with a property, unless the limit stops it. -/
def Gives (limit : DigitLimit) (x : Except Fault α) (P : α → Prop) : Prop :=
  (∃ a, x = .ok a ∧ P a) ∨ limit.Stops x

namespace Gives

variable {x : Except Fault α} {P Q : α → Prop}

theorem ok {a : α} (h : P a) : limit.Gives (.ok a) P :=
  .inl ⟨a, rfl, h⟩

theorem mono (h : limit.Gives x P) (hPQ : ∀ a, x = .ok a → P a → Q a) : limit.Gives x Q :=
  h.imp_left fun ⟨a, hx, ha⟩ => ⟨a, hx, hPQ a hx ha⟩

theorem bind {f : α → Except Fault β} {R : β → Prop} (h : limit.Gives x P)
    (hf : ∀ a, x = .ok a → P a → limit.Gives (f a) R) : limit.Gives (x >>= f) R := by
  obtain ⟨a, rfl, ha⟩ | hstop := h
  · exact hf a rfl ha
  · exact .inr (hstop.bind f)

/-- What a result has, if there is one. -/
theorem of_ok {a : α} (h : limit.Gives x P) (hx : x = .ok a) : P a := by
  obtain ⟨a', hx', ha⟩ | hstop := h
  · rw [hx] at hx'
    rwa [Except.ok.inj hx']
  · exact absurd (hx ▸ hstop) not_stops_ok

theorem exists_of_unlimited (h : unlimited.Gives x P) : ∃ a, x = .ok a ∧ P a :=
  h.resolve_right not_stops_unlimited

end Gives

/-! ## Computations up to the limit -/

/-- The first computation is the second one, unless the limit stops it. -/
def Restricts (limit : DigitLimit) (x y : Except Fault α) : Prop :=
  x = y ∨ limit.Stops x

namespace Restricts

variable {x y : Except Fault α}

theorem refl (x : Except Fault α) : limit.Restricts x x :=
  .inl rfl

/-- What the limit lets through is the result without it. -/
theorem eq_ok (h : limit.Restricts x y) {a : α} (hx : x = .ok a) : y = .ok a := by
  obtain rfl | hstop := h
  · exact hx
  · exact absurd (hx ▸ hstop) not_stops_ok

theorem bind (h : limit.Restricts x y) {f g : α → Except Fault β}
    (hf : ∀ a, limit.Restricts (f a) (g a)) :
    limit.Restricts (x >>= f) (y >>= g) := by
  obtain rfl | hstop := h
  · cases x with
    | ok a => exact hf a
    | error => exact .refl _
  · exact .inr (hstop.bind f)

theorem ite {c : Prop} [Decidable c] {x' y' : Except Fault α} (h : limit.Restricts x y)
    (h' : limit.Restricts x' y') :
    limit.Restricts (if c then x else x') (if c then y else y') := by
  split
  · exact h
  · exact h'

theorem mapM {f g : α → Except Fault β} {xs : List α}
    (h : ∀ a ∈ xs, limit.Restricts (f a) (g a)) :
    limit.Restricts (xs.mapM f) (xs.mapM g) := by
  induction xs with
  | nil => exact .refl _
  | cons a xs ih =>
    rw [List.forall_mem_cons] at h
    rw [List.mapM_cons, List.mapM_cons]
    exact h.1.bind fun _ => (ih h.2).bind fun _ => .refl _

/-- Restrictions of one computation are the same, unless the limit stops one of them. -/
theorem eq_or_stops {z : Except Fault α} (hx : limit.Restricts x z) (hy : limit.Restricts y z) :
    x = y ∨ limit.Stops x ∨ limit.Stops y := by
  obtain rfl | hstop := hx
  · obtain rfl | hstop := hy
    · exact .inl rfl
    · exact .inr (.inr hstop)
  · exact .inr (.inl hstop)

/-- A result without the limit is the result under it, unless that stops. -/
theorem gives {P : α → Prop} {a : α} (h : limit.Restricts x y) (hy : y = .ok a) (ha : P a) :
    limit.Gives x P := by
  obtain rfl | hstop := h
  · exact .inl ⟨a, hy, ha⟩
  · exact .inr hstop

end Restricts

/-! ## Computations that the limit stops alike -/

/-- Two computations are the same, or the limit stops both of them. -/
def Agree (limit : DigitLimit) (x y : Except Fault α) : Prop :=
  x = y ∨ limit.Stops x ∧ limit.Stops y

namespace Agree

variable {x y z : Except Fault α}

theorem refl (x : Except Fault α) : limit.Agree x x :=
  .inl rfl

theorem trans (h : limit.Agree x y) (h' : limit.Agree y z) : limit.Agree x z := by
  obtain rfl | ⟨hx, hy⟩ := h
  · exact h'
  · obtain rfl | ⟨-, hz⟩ := h'
    · exact .inr ⟨hx, hy⟩
    · exact .inr ⟨hx, hz⟩

theorem eq_of_unlimited (h : unlimited.Agree x y) : x = y :=
  h.resolve_right fun hstop => not_stops_unlimited hstop.1

end Agree

end DigitLimit

end AlgebraicForm
