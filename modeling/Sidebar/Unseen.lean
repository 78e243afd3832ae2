/-!
# Sidebar.Unseen: what a walk has not met yet

`unseen all seen` counts the elements of `all` that are not among those seen.  Main statements:
seeing more never makes the count larger (`unseen_le`), and seeing a new element makes it smaller
(`unseen_cons_lt`), which is why walks that enter nothing twice come to an end.
-/

namespace Sidebar

variable {α : Type} [DecidableEq α]

/-- How many elements of `all` are not in `seen`. -/
def unseen (all seen : List α) : Nat := all.countP (· ∉ seen)

theorem unseen_le {all seen more : List α} (h : ∀ a ∈ seen, a ∈ more) :
    unseen all more ≤ unseen all seen :=
  List.countP_mono_left fun a _ => by simpa using fun hn hm => hn (h a hm)

theorem unseen_cons_lt {all seen : List α} {a : α} (ha : a ∈ all) (hs : a ∉ seen) :
    unseen all (a :: seen) < unseen all seen := by
  obtain ⟨before, behind, rfl⟩ := List.append_of_mem ha
  have h1 : unseen before (a :: seen) ≤ unseen before seen :=
    unseen_le fun b hb => List.mem_cons_of_mem a hb
  have h2 : unseen behind (a :: seen) ≤ unseen behind seen :=
    unseen_le fun b hb => List.mem_cons_of_mem a hb
  simp only [unseen, List.countP_append, List.countP_cons, List.mem_cons, true_or,
    not_true_eq_false, decide_false, hs, not_false_eq_true, decide_true, if_true,
    Bool.false_eq_true, if_false] at h1 h2 ⊢
  omega

end Sidebar
