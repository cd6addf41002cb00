import AlgebraicForm.Proofs.BuilderSteps
import AlgebraicForm.Proofs.LimitedTexts
import Mathlib.Data.Char
import Mathlib.Data.List.Lex
import Mathlib.Data.List.Perm.Basic

/-!
# The order of terms and factors

The comparisons of keys are total and transitive, so sorting puts operands in order, leaves them
alone where they are in order already, and has one outcome for all arrangements of operands that do
not tie.

Being in order is stated of operands that need not have a text: `TermsInOrder` and `FactorsInOrder`
say something only where there are keys to compare. These are keys without a limit: where operands
are sorted under one, their keys are the same.

* `sortBy_pairwise`, `sortBy_eq_self`: sorting in general.
* `keyedTerms_sorted`: the terms of a sum are in order.
* `sortFactors_pairwise`, `sortFactors_eq_ok`: the same for factors, and the converse.
-/

namespace AlgebraicForm

open AlgebraicForm.Expr

/-! ## Sorting -/

section

variable {α : Type} {le : α → α → Bool} {xs : List α}

theorem insertBy_pairwise {x : α} (total : ∀ y ∈ xs, le x y = true ∨ le y x = true)
    (trans : ∀ y ∈ xs, ∀ z ∈ xs, le x y = true → le y z = true → le x z = true)
    (h : xs.Pairwise (le · · = true)) : (insertBy le x xs).Pairwise (le · · = true) := by
  induction xs with
  | nil => simp [insertBy]
  | cons y ys ih =>
    obtain ⟨hy, hys⟩ := List.pairwise_cons.mp h
    rw [insertBy]
    split
    next hle =>
      refine List.pairwise_cons.mpr ⟨fun z hz => ?_, h⟩
      obtain rfl | hz := List.mem_cons.mp hz
      · exact hle
      · exact trans y (by simp) z (by simp [hz]) hle (hy z hz)
    next hle =>
      have hxy : le y x = true := (total y (by simp)).resolve_left hle
      refine List.pairwise_cons.mpr ⟨fun z hz => ?_, ih ?_ ?_ hys⟩
      · -- what was inserted, or an element behind `y`
        obtain rfl | hz := List.mem_cons.mp ((insertBy_perm le x ys).mem_iff.mp hz)
        · exact hxy
        · exact hy z hz
      · exact fun z hz => total z (by simp [hz])
      · exact fun z hz w hw => trans z (by simp [hz]) w (by simp [hw])

/-- A sorted list is in order, if the comparison is total and transitive on its elements. -/
theorem sortBy_pairwise (total : ∀ x ∈ xs, ∀ y ∈ xs, le x y = true ∨ le y x = true)
    (trans : ∀ x ∈ xs, ∀ y ∈ xs, ∀ z ∈ xs, le x y = true → le y z = true → le x z = true) :
    (sortBy le xs).Pairwise (le · · = true) := by
  induction xs with
  | nil => exact .nil
  | cons x xs ih =>
    have hmem : ∀ y ∈ sortBy le xs, y ∈ xs := fun y hy => (sortBy_perm le xs).mem_iff.mp hy
    show (insertBy le x (sortBy le xs)).Pairwise (le · · = true)
    refine insertBy_pairwise ?_ ?_ (ih ?_ ?_)
    · exact fun y hy => total x (by simp) y (by simp [hmem y hy])
    · exact fun y hy z hz => trans x (by simp) y (by simp [hmem y hy]) z (by simp [hmem z hz])
    · exact fun y hy z hz => total y (by simp [hy]) z (by simp [hz])
    · exact fun y hy z hz w hw => trans y (by simp [hy]) z (by simp [hz]) w (by simp [hw])

theorem sortBy_eq_self (h : xs.Pairwise (le · · = true)) : sortBy le xs = xs := by
  induction xs with
  | nil => rfl
  | cons x xs ih =>
    obtain ⟨hx, hxs⟩ := List.pairwise_cons.mp h
    show insertBy le x (sortBy le xs) = x :: xs
    rw [ih hxs]
    cases xs with
    | nil => rfl
    | cons y ys => rw [insertBy, if_pos (hx y (by simp))]

/-- A property of neighbours carries over to the elements that they come from. -/
theorem pairwise_of_forall₂ {β : Type} {R : β → α → Prop} {S : α → α → Prop} {T : β → β → Prop}
    {ys : List β} (h : List.Forall₂ R ys xs) (hxs : xs.Pairwise S)
    (hT : ∀ y x y' x', R y x → R y' x' → S x x' → T y y') : ys.Pairwise T := by
  induction h with
  | nil => exact .nil
  | @cons y x ys xs hyx hrest ih =>
    obtain ⟨hx, hxs⟩ := List.pairwise_cons.mp hxs
    refine List.pairwise_cons.mpr ⟨fun y' hy' => ?_, ih hxs⟩
    obtain ⟨x', hx', hyx'⟩ := exists_mem_of_forall₂ hrest.flip hy'
    exact hT y x y' x' hyx hyx' (hx x' hx')

end

/-! ## Comparing keys -/

theorem textLe_total (a b : List Char) : textLe a b = true ∨ textLe b a = true := by
  simpa [textLe] using le_total a b

theorem textLe_trans {a b c : List Char} (h : textLe a b = true) (h' : textLe b c = true) :
    textLe a c = true := by
  simp only [textLe, Bool.not_eq_true', decide_eq_false_iff_not, not_lt] at *
  exact le_trans h h'

theorem textLe_antisymm {a b : List Char} (h : textLe a b = true) (h' : textLe b a = true) :
    a = b := by
  simp only [textLe, Bool.not_eq_true', decide_eq_false_iff_not, not_lt] at *
  exact le_antisymm h h'

theorem textLe_refl (a : List Char) : textLe a a = true :=
  (textLe_total a a).elim id id

theorem factorLe_total (a b : List Char × List Char) :
    factorLe a b = true ∨ factorLe b a = true := by
  unfold factorLe
  by_cases h : a.1 = b.1
  · simpa [h] using textLe_total a.2 b.2
  · simpa [h, Ne.symm h] using textLe_total a.1 b.1

theorem factorLe_trans {a b c : List Char × List Char} (h : factorLe a b = true)
    (h' : factorLe b c = true) : factorLe a c = true := by
  have hfirst : ∀ {a b : List Char × List Char}, factorLe a b = true → textLe a.1 b.1 = true := by
    intro a b h
    unfold factorLe at h
    split at h
    next heq => exact heq ▸ textLe_refl _
    next => exact h
  by_cases hac : a.1 = c.1
  · -- then the middle text is the same as well, and the second texts decide
    have hab : a.1 = b.1 := textLe_antisymm (hfirst h) (hac ▸ hfirst h')
    have hbc : b.1 = c.1 := hab ▸ hac
    simp only [factorLe, hab, hbc, if_true] at h h' ⊢
    exact textLe_trans h h'
  · rw [factorLe, if_neg hac]
    exact textLe_trans (hfirst h) (hfirst h')

theorem factorLe_antisymm {a b : List Char × List Char} (h : factorLe a b = true)
    (h' : factorLe b a = true) : a = b := by
  unfold factorLe at h h'
  by_cases heq : a.1 = b.1
  · rw [if_pos heq] at h
    rw [if_pos heq.symm] at h'
    exact Prod.ext heq (textLe_antisymm h h')
  · rw [if_neg heq] at h
    rw [if_neg (Ne.symm heq)] at h'
    exact absurd (textLe_antisymm h h') heq

theorem termLe_exact (s t : List Char) (p q : Rat) : termLe (s, .exact p) (t, .exact q) = true ↔
    (s = t ∧ p ≤ q) ∨ (s ≠ t ∧ textLe s t = true) := by
  unfold termLe
  by_cases h : s = t <;> simp [h, Number.less]

theorem termLe_total (s t : List Char) (p q : Rat) :
    termLe (s, .exact p) (t, .exact q) = true ∨ termLe (t, .exact q) (s, .exact p) = true := by
  rw [termLe_exact, termLe_exact]
  by_cases h : s = t
  · simpa [h] using le_total p q
  · simpa [h, Ne.symm h] using textLe_total s t

theorem termLe_trans {s t u : List Char} {p q r : Rat}
    (h : termLe (s, .exact p) (t, .exact q) = true)
    (h' : termLe (t, .exact q) (u, .exact r) = true) :
    termLe (s, .exact p) (u, .exact r) = true := by
  rw [termLe_exact] at *
  obtain ⟨rfl, hpq⟩ | ⟨hst, hle⟩ := h
  · obtain ⟨rfl, hqr⟩ | h' := h'
    · exact .inl ⟨rfl, le_trans hpq hqr⟩
    · exact .inr h'
  · obtain ⟨rfl, -⟩ | ⟨-, hle'⟩ := h'
    · exact .inr ⟨hst, hle⟩
    · refine .inr ⟨?_, textLe_trans hle hle'⟩
      rintro rfl
      exact hst (textLe_antisymm hle hle')

/-! ## Terms in order -/

/-- A body with its coefficient comes no later than another one, if both bodies have a text. -/
def TermsInOrder (g h : Expr × Rat) : Prop :=
  ∀ s t, g.1.text .unlimited = .ok s → h.1.text .unlimited = .ok t →
    termLe (s, .exact g.2) (t, .exact h.2) = true

/-- The terms of a sum are scaled bodies in order. -/
theorem keyedTerms_sorted {s : Settings} {gs : List (Expr × Rat)}
    {ks : List ((List Char × Number) × Expr)}
    (h : keyedTerms s (exactGroups gs) = .ok ks) :
    ∃ hs : List (Expr × Rat), hs.Perm (gs.filter (·.2 ≠ 0)) ∧ hs.Pairwise TermsInOrder ∧
      sortedTerms ks = hs.map fun g => scale (.exact g.2) g.1 := by
  have hks := keyedTerms_eq_ok h
  have hexact : ∀ k ∈ ks, ∃ s c e, k = ((s, .exact c), e) := by
    intro k hk
    obtain ⟨g, -, -, hc, -⟩ := exists_mem_of_forall₂ hks hk
    exact ⟨k.1.1, g.2, k.2, by rw [← hc]⟩
  have hsorted : (sortBy (fun a b => termLe a.1 b.1) ks).Pairwise
      (fun a b => termLe a.1 b.1 = true) := by
    refine sortBy_pairwise (fun x hx y hy => ?_) fun x hx y hy z hz => ?_
    · obtain ⟨s, c, e, rfl⟩ := hexact x hx
      obtain ⟨t, d, f, rfl⟩ := hexact y hy
      exact termLe_total s t c d
    · obtain ⟨s, c, e, rfl⟩ := hexact x hx
      obtain ⟨t, d, f, rfl⟩ := hexact y hy
      obtain ⟨u, b, g, rfl⟩ := hexact z hz
      exact termLe_trans
  obtain ⟨hs, hhs, hperm⟩ := List.perm_comp_forall₂ (sortBy_perm _ ks) hks.flip
  refine ⟨hs, hperm, pairwise_of_forall₂ hhs.flip hsorted ?_, ?_⟩
  · rintro g k g' k' ⟨htext, hc, -⟩ ⟨htext', hc', -⟩ hle s t hs ht
    rw [text_unlimited htext] at hs
    rw [text_unlimited htext'] at ht
    obtain rfl := Except.ok.inj hs
    obtain rfl := Except.ok.inj ht
    rwa [← hc, ← hc']
  · exact map_eq_map_of_forall₂ hhs fun k g hk => hk.2.2

/-! ## Factors in order -/

/-- A factor comes no later than another one, if both have keys. -/
def FactorsInOrder (f g : Expr) : Prop :=
  ∀ k l, f.factorKey .unlimited = .ok k → g.factorKey .unlimited = .ok l → factorLe k l = true

theorem sortFactors_pairwise {s : Settings} {fs gs : List Expr} (h : sortFactors s fs = .ok gs) :
    gs.Pairwise FactorsInOrder := by
  obtain ⟨ks, hks, rfl⟩ := sortFactors_eq_ok_iff.mp h
  have hsorted : (sortBy (fun a b => factorLe a.1 b.1) ks).Pairwise
      (fun a b => factorLe a.1 b.1 = true) :=
    sortBy_pairwise (fun x _ y _ => factorLe_total x.1 y.1) fun x _ y _ z _ => factorLe_trans
  have hkeys : ∀ k ∈ sortBy (fun a b => factorLe a.1 b.1) ks, k.2.factorKey s.digits = .ok k.1 := by
    intro k hk
    obtain ⟨f, -, hf, rfl⟩ := exists_mem_of_forall₂ hks ((sortBy_perm _ ks).mem_iff.mp hk)
    exact hf
  rw [List.pairwise_map]
  refine hsorted.imp_of_mem fun {k l} hk hl hle => ?_
  intro key key' hkey hkey'
  rw [factorKey_unlimited (hkeys k hk)] at hkey
  rw [factorKey_unlimited (hkeys l hl)] at hkey'
  rwa [← Except.ok.inj hkey, ← Except.ok.inj hkey']

theorem exists_keyedFactors {s : Settings} {fs : List Expr}
    (hkeys : ∀ f ∈ fs, ∃ k, f.factorKey s.digits = .ok k) :
    ∃ ks : List ((List Char × List Char) × Expr),
      List.Forall₂ (fun f k => f.factorKey s.digits = .ok k.1 ∧ k.2 = f) fs ks := by
  induction fs with
  | nil => exact ⟨[], .nil⟩
  | cons f fs ih =>
    rw [List.forall_mem_cons] at hkeys
    obtain ⟨k, hk⟩ := hkeys.1
    obtain ⟨ks, hks⟩ := ih hkeys.2
    exact ⟨(k, f) :: ks, .cons ⟨hk, rfl⟩ hks⟩

/-- Factors with keys can be sorted. -/
theorem exists_sorted {s : Settings} {fs : List Expr}
    (hkeys : ∀ f ∈ fs, ∃ k, f.factorKey s.digits = .ok k) : ∃ gs, sortFactors s fs = .ok gs := by
  obtain ⟨ks, hks⟩ := exists_keyedFactors hkeys
  exact ⟨_, sortFactors_eq_ok_iff.mpr ⟨ks, hks, rfl⟩⟩

/-- Factors with keys that are in order are their own arrangement. -/
theorem sortFactors_eq_ok {s : Settings} {fs : List Expr}
    (hkeys : ∀ f ∈ fs, ∃ k, f.factorKey s.digits = .ok k)
    (h : fs.Pairwise FactorsInOrder) : sortFactors s fs = .ok fs := by
  obtain ⟨ks, hks⟩ := exists_keyedFactors hkeys
  refine sortFactors_eq_ok_iff.mpr ⟨ks, hks, ?_⟩
  have hsorted : ks.Pairwise (fun a b => factorLe a.1 b.1 = true) := by
    refine pairwise_of_forall₂ hks.flip h ?_
    rintro k f k' f' ⟨hk, -⟩ ⟨hk', -⟩ hle
    exact hle k.1 k'.1 (factorKey_unlimited hk) (factorKey_unlimited hk')
  rw [sortBy_eq_self hsorted, ← List.map_id fs]
  exact (map_eq_map_of_forall₂ hks fun f k hk => hk.2.symm).symm

end AlgebraicForm
