import Mathlib.Data.Nat.Init
import Mathlib.Logic.Relation

/-!
# Ranked relations

A relation is ranked when some number grows along it. Such a relation has no
cycles, and whoever goes back along it comes to an end. An edge may be added
where its end does not lead to its beginning.
-/
namespace Ranks

open Relation

variable {α : Type*} {r s : α → α → Prop}

def Ranked (r : α → α → Prop) : Prop := ∃ rank : α → Nat, ∀ x y, r x y → rank x < rank y

theorem Ranked.mono (hs : Ranked s) (h : ∀ x y, r x y → s x y) : Ranked r := by
  obtain ⟨rank, hrank⟩ := hs
  exact ⟨rank, fun x y hr => hrank x y (h x y hr)⟩

/-- All that the end of the new edge leads to is lifted above its beginning. -/
theorem Ranked.insert (hr : Ranked r) {a b : α} (hab : ¬ReflTransGen r b a) :
    Ranked (fun x y => r x y ∨ x = a ∧ y = b) := by
  classical
  obtain ⟨rank, hrank⟩ := hr
  refine ⟨fun x => if ReflTransGen r b x then rank x + rank a + 1 else rank x, ?_⟩
  rintro x y (hxy | ⟨rfl, rfl⟩)
  · have hlt := hrank x y hxy
    by_cases hx : ReflTransGen r b x
    · simp only [hx, hx.tail hxy, if_true]
      omega
    · by_cases hy : ReflTransGen r b y <;> simp only [hx, hy, if_true, if_false] <;> omega
  · simp only [hab, ReflTransGen.refl, if_true, if_false]
    omega

/-- Where everything with `P` has a predecessor with `P` or satisfies `Q`, the
way back leads to something that does both. -/
theorem Ranked.exists_source (hr : Ranked r) {P Q : α → Prop}
    (hback : ∀ x, P x → Q x ∨ ∃ y, P y ∧ r y x) {a : α} (ha : P a) :
    ∃ b, ReflTransGen r b a ∧ P b ∧ Q b := by
  obtain ⟨rank, hrank⟩ := hr
  induction hn : rank a using Nat.strongRecOn generalizing a with
  | ind n ih =>
    obtain hq | ⟨y, hy, hya⟩ := hback a ha
    · exact ⟨a, .refl, ha, hq⟩
    · obtain ⟨b, hb, hp⟩ := ih (rank y) (hn ▸ hrank y a hya) hy rfl
      exact ⟨b, hb.tail hya, hp⟩

end Ranks
