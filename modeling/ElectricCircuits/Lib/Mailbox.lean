import Mathlib.Data.List.Basic

/-! One queue that many wait at: of what is sent into it each has a part of its own, in the order of the queue. -/
namespace Mailbox
variable {ι α : Type*} [DecidableEq ι]

/-- What is in a queue for one of those who wait. -/
def box (queue : List (ι × α)) (i : ι) : List α := (queue.filter fun m => m.1 = i).map (·.2)

@[simp] lemma box_cons_self (i : ι) (a : α) (queue : List (ι × α)) : box ((i,a) :: queue) i = a :: box queue i := by
  simp [box]

@[simp] lemma box_append (queue queue' : List (ι × α)) (i : ι) :
    box (queue ++ queue') i = box queue i ++ box queue' i := by
  simp [box]

variable {i j : ι}

lemma box_cons_of_ne (h : j ≠ i) (a : α) (queue : List (ι × α)) : box ((j,a) :: queue) i = box queue i := by
  simp [box,h]

/-- What is sent to one is all for that one. -/
@[simp] lemma box_send (as : List α) : box (as.map fun a => (i,a)) i = as := by
  induction as with
  | nil => rfl
  | cons a as ih => rw [List.map_cons,box_cons_self,ih]

lemma box_send_of_ne (h : j ≠ i) (as : List α) : box (as.map fun a => (j,a)) i = [] := by
  induction as with
  | nil => rfl
  | cons a as ih => rw [List.map_cons,box_cons_of_ne h,ih]

end Mailbox
