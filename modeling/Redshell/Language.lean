import Mathlib

/-! Regular languages built from classes of letters. -/
namespace Redshell.Lang

open Computability

variable {α : Type} {P Q : α → Prop} {s t : List α} {a : α} {l : Language α}

/-- The one-letter words with a letter of the class. -/
def char (P : α → Prop) : Language α := {s | ∃ a, P a ∧ s = [a]}

/-- `l?` -/
def opt (l : Language α) : Language α := 1 + l

/-- `l+` -/
def plus (l : Language α) : Language α := l * l∗

theorem mem_opt : s ∈ opt l ↔ s = [] ∨ s ∈ l := Iff.rfl

theorem mem_char_mul : s ∈ char P * l ↔ ∃ a t, s = a :: t ∧ P a ∧ t ∈ l := by
  rw [Language.mem_mul]
  constructor
  · rintro ⟨_, ⟨a, ha, rfl⟩, t, ht, rfl⟩
    exact ⟨a, t, rfl, ha, ht⟩
  · rintro ⟨a, t, rfl, ha, ht⟩
    exact ⟨[a], ⟨a, ha, rfl⟩, t, ht, rfl⟩

theorem nil_mem_kstar : [] ∈ l∗ := Language.nil_mem_kstar l

theorem append_mem_kstar (hs : s ∈ l) (ht : t ∈ l∗) : s ++ t ∈ l∗ := by
  rw [← Language.one_add_self_mul_kstar_eq_kstar l]
  exact Or.inr (Language.append_mem_mul hs ht)

theorem mem_kstar_char : s ∈ (char P)∗ ↔ ∀ a ∈ s, P a := by
  constructor
  · intro h
    obtain ⟨words, rfl, hw⟩ := Language.mem_kstar.mp h
    intro a ha
    obtain ⟨w, hm, ha⟩ := List.mem_flatten.mp ha
    obtain ⟨b, hb, rfl⟩ := hw w hm
    rwa [List.mem_singleton.mp ha]
  · intro h
    induction s with
    | nil => exact nil_mem_kstar
    | cons a s ih =>
      have ha : [a] ∈ char P := ⟨a, h a List.mem_cons_self, rfl⟩
      exact append_mem_kstar ha (ih fun b hb => h b (List.mem_cons_of_mem _ hb))

theorem mem_plus_char : s ∈ plus (char P) ↔ s ≠ [] ∧ ∀ a ∈ s, P a := by
  rw [plus, mem_char_mul]
  constructor
  · rintro ⟨a, t, rfl, ha, ht⟩
    refine ⟨by simp, fun b hb => ?_⟩
    rcases List.mem_cons.mp hb with rfl | hb
    · exact ha
    · exact mem_kstar_char.mp ht b hb
  · rintro ⟨hne, h⟩
    obtain ⟨a, t, rfl⟩ := List.exists_cons_of_ne_nil hne
    exact ⟨a, t, rfl, h a List.mem_cons_self,
      mem_kstar_char.mpr fun b hb => h b (List.mem_cons_of_mem _ hb)⟩

/-! Words of one class separated by letters of another one. -/

def spaced (P Q : α → Prop) : Language α := plus (char P) * (plus (char Q) * plus (char P))∗

theorem spaced_cons (ha : P a) (hs : s ∈ spaced P Q) : a :: s ∈ spaced P Q := by
  obtain ⟨w, hw, v, hv, rfl⟩ := Language.mem_mul.mp hs
  obtain ⟨_, hall⟩ := mem_plus_char.mp hw
  refine Language.append_mem_mul (a := a :: w) (mem_plus_char.mpr ⟨by simp, fun b hb => ?_⟩) hv
  rcases List.mem_cons.mp hb with rfl | hb
  · exact ha
  · exact hall b hb

theorem spaced_append (ha : P a) (ht : t ≠ []) (hq : ∀ b ∈ t, Q b) (hs : s ∈ spaced P Q) :
    a :: (t ++ s) ∈ spaced P Q := by
  obtain ⟨w, hw, v, hv, rfl⟩ := Language.mem_mul.mp hs
  have hfirst : [a] ∈ plus (char P) := mem_plus_char.mpr ⟨by simp, by simpa using ha⟩
  have hnext : t ++ w ∈ plus (char Q) * plus (char P) :=
    Language.append_mem_mul (mem_plus_char.mpr ⟨ht, hq⟩) hw
  have happ := Language.append_mem_mul hfirst (append_mem_kstar hnext hv)
  simpa [spaced] using happ

theorem singleton_mem_spaced (ha : P a) : [a] ∈ spaced P Q := by
  have hfirst : [a] ∈ plus (char P) := mem_plus_char.mpr ⟨by simp, by simpa using ha⟩
  simpa [spaced] using Language.append_mem_mul hfirst
    (nil_mem_kstar (l := plus (char Q) * plus (char P)))

theorem spaced_letters (hs : s ∈ spaced P Q) : ∀ a ∈ s, P a ∨ Q a := by
  obtain ⟨w, hw, v, hv, rfl⟩ := Language.mem_mul.mp hs
  obtain ⟨pieces, rfl, hp⟩ := Language.mem_kstar.mp hv
  intro a ha
  rcases List.mem_append.mp ha with ha | ha
  · exact Or.inl ((mem_plus_char.mp hw).2 a ha)
  · obtain ⟨piece, hm, ha⟩ := List.mem_flatten.mp ha
    obtain ⟨q, hq, p, hp', rfl⟩ := Language.mem_mul.mp (hp piece hm)
    rcases List.mem_append.mp ha with ha | ha
    · exact Or.inr ((mem_plus_char.mp hq).2 a ha)
    · exact Or.inl ((mem_plus_char.mp hp').2 a ha)

/-- Any text of both classes is separators and then, if anything, spaced words and separators. -/
theorem exists_spaced (h : ∀ a ∈ s, P a ∨ Q a) :
    ∃ t u, s = t ++ u ∧ (∀ a ∈ t, Q a) ∧ (u = [] ∨ u ∈ spaced P Q * (char Q)∗) := by
  induction s with
  | nil => exact ⟨[], [], rfl, by simp, Or.inl rfl⟩
  | cons a s ih =>
    obtain ⟨t, u, rfl, ht, hu⟩ := ih fun b hb => h b (List.mem_cons_of_mem _ hb)
    rcases h a List.mem_cons_self with ha | ha
    · refine ⟨[], a :: (t ++ u), rfl, by simp, Or.inr ?_⟩
      rcases hu with rfl | hu
      · rw [List.append_nil]
        exact Language.append_mem_mul (a := [a]) (singleton_mem_spaced ha) (mem_kstar_char.mpr ht)
      · obtain ⟨v, hv, q, hq, rfl⟩ := Language.mem_mul.mp hu
        by_cases hne : t = []
        · subst hne
          exact Language.append_mem_mul (a := a :: v) (spaced_cons ha hv) hq
        · have happ := Language.append_mem_mul (spaced_append ha hne ht hv) hq
          simpa using happ
    · refine ⟨a :: t, u, rfl, fun b hb => ?_, hu⟩
      rcases List.mem_cons.mp hb with rfl | hb
      · exact ha
      · exact ht b hb

/-- Spaced words with separators after them: a text that starts with a letter of a word. -/
theorem mem_spaced_mul : s ∈ spaced P Q * (char Q)∗ ↔
    ∃ a t, s = a :: t ∧ P a ∧ ∀ b ∈ t, P b ∨ Q b := by
  constructor
  · intro h
    obtain ⟨v, hv, q, hq, rfl⟩ := Language.mem_mul.mp h
    have hall : ∀ b ∈ v ++ q, P b ∨ Q b := by
      intro b hb
      rcases List.mem_append.mp hb with hb | hb
      · exact spaced_letters hv b hb
      · exact Or.inr (mem_kstar_char.mp hq b hb)
    obtain ⟨w, hw, r, _, rfl⟩ := Language.mem_mul.mp hv
    obtain ⟨hne, hp⟩ := mem_plus_char.mp hw
    obtain ⟨a, w, rfl⟩ := List.exists_cons_of_ne_nil hne
    exact ⟨a, w ++ r ++ q, by simp, hp a List.mem_cons_self,
      fun b hb => hall b (List.mem_cons_of_mem _ (by simpa using hb))⟩
  · rintro ⟨a, t, rfl, ha, ht⟩
    obtain ⟨q, u, rfl, hq, hu⟩ := exists_spaced ht
    rcases hu with rfl | hu
    · rw [List.append_nil]
      exact Language.append_mem_mul (a := [a]) (singleton_mem_spaced ha) (mem_kstar_char.mpr hq)
    · obtain ⟨v, hv, r, hr, rfl⟩ := Language.mem_mul.mp hu
      by_cases hne : q = []
      · subst hne
        exact Language.append_mem_mul (a := a :: v) (spaced_cons ha hv) hr
      · have happ := Language.append_mem_mul (spaced_append ha hne hq hv) hr
        simpa using happ

/-- A sum of languages holds what one of them holds. -/
theorem mem_sum {ls : List (Language α)} : s ∈ ls.sum ↔ ∃ l ∈ ls, s ∈ l := by
  induction ls with
  | nil => simp
  | cons l ls ih =>
    rw [List.sum_cons, Language.mem_add, ih]
    simp

end Redshell.Lang
