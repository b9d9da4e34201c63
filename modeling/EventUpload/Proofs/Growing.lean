import Mathlib.Data.List.Induction

/-!
# Lists that grow at their end

What happens to a system is noted down in lists, and every step adds to their ends. A place in such a
list is its end, or it was a place before the last step.

A property of every cut of such a list is the usual form of "at every moment until now" in this project,
and with `forall_cut_concat` a step has to show it of the new last cut only.
-/

set_option autoImplicit false

namespace EventUpload

variable {α : Type}

/-- A list that ends in `t` is cut at its end or before. -/
theorem concat_eq_append_cons {as before after : List α} {t a : α}
    (h : as ++ [t] = before ++ a :: after) :
    (before = as ∧ a = t ∧ after = []) ∨ ∃ rest, after = rest ++ [t] ∧ as = before ++ a :: rest := by
  rcases List.eq_nil_or_concat after with rfl | ⟨rest, b, rfl⟩
  · obtain ⟨rfl, hta⟩ := List.append_inj' h rfl
    exact .inl ⟨rfl, (List.singleton_inj.mp hta).symm, rfl⟩
  · rw [List.concat_eq_append, ← List.cons_append, ← List.append_assoc] at h
    obtain ⟨has, htb⟩ := List.append_inj' h rfl
    obtain rfl := List.singleton_inj.mp htb
    exact .inr ⟨rest, List.concat_eq_append, has⟩

/-- What holds of every member and of what comes before it goes on to do so if it holds of the last. -/
theorem forall_cut_concat {P : List α → α → Prop} {as : List α} {t : α}
    (h : ∀ before a after, as = before ++ a :: after → P before a) (ht : P as t) :
    ∀ before a after, as ++ [t] = before ++ a :: after → P before a := by
  intro before a after heq
  rcases concat_eq_append_cons heq with ⟨rfl, rfl, -⟩ | ⟨rest, -, has⟩
  · exact ht
  · exact h before a rest has

end EventUpload
