import Mathlib.Data.Nat.Notation
import Mathlib.Logic.Function.Basic

/-!
# Buckets that spread a log

A log is a list with the newest item first.  Buckets hold it when each of them lists the items of
its index, in the order of the log.  Then an item that can only be in one bucket is found there as
it would be found in the log.
-/

namespace BucketLog

variable {ι α : Type*} [DecidableEq ι] {index : α → ι} {buckets : ι → List α} {log : List α}

/-- Each bucket lists the items of the log that belong to it. -/
def Holds (index : α → ι) (buckets : ι → List α) (log : List α) : Prop :=
  ∀ i, buckets i = log.filter fun a => index a = i

theorem holds_empty : Holds index (fun _ => []) [] := fun _ => rfl

/-- A new item is put in front of its bucket. -/
theorem Holds.push (h : Holds index buckets log) (a : α) :
    Holds index (Function.update buckets (index a) (a :: buckets (index a))) (a :: log) := by
  intro i
  by_cases hi : i = index a
  · subst hi
    rw [Function.update_self, h, List.filter_cons_of_pos (by simp)]
  · rw [Function.update_of_ne hi, h, List.filter_cons_of_neg (by simpa using Ne.symm hi)]

/-- The first match in the bucket of all matches is the first match in the log. -/
theorem Holds.find (h : Holds index buckets log) {p : α → Bool} {i : ι}
    (hp : ∀ a, p a = true → index a = i) : (buckets i).find? p = log.find? p := by
  rw [h, List.find?_filter]
  congr 1
  funext a
  cases ha : p a with
  | false => simp
  | true => simp [hp a ha]

end BucketLog
