/-
Module: RumpBaremetal.Kernel.Queue
Layer: Kernel
Purpose: The tail queues of bmk/queue.h at the level of their pointers, and its loops.  The fields of the
  heads and of the elements are tables; `tqh_last` and `tqe_prev` hold the address of a field, which is a
  value of its own type.  A macro is the sequence of its assignments, each of which sees the ones before it.
Trusted boundary: human-reviewed spec
Main exports: Link, Tailqs, tailqFirst, tailqNext, tailqEmpty, tailqInit, tailqInsertHead, tailqInsertTail,
  tailqRemove, foreach, foreachSafe
-/
import RumpBaremetal.Lib.Links

namespace RumpBaremetal

/-- The address of a pointer to an element: `&(head)->tqh_first` or `&(elm)->field.tqe_next`. -/
inductive Link (Head Elm : Type*) where
  | first (head : Head)
  | next (elm : Elm)
deriving DecidableEq, Repr

/-- The heads of some queues and the entries of their elements: `tqh_first` and `tqe_next` are the words
    that links point to, `tqe_prev` is where each element points back.  [SRC queue.h:389-404] -/
structure Tailqs (Head Elm : Type*) where
  links : Links (Link Head Elm) Elm
  tqhLast : Head → Link Head Elm

variable {Head Elm : Type*}

/-- [SRC queue.h:409] -/
def tailqFirst (q : Tailqs Head Elm) (head : Head) : Option Elm := q.links.target (.first head)

/-- [SRC queue.h:411] -/
def tailqNext (q : Tailqs Head Elm) (elm : Elm) : Option Elm := q.links.target (.next elm)

/-- [SRC queue.h:416] -/
def tailqEmpty (q : Tailqs Head Elm) (head : Head) : Bool := (tailqFirst q head).isNone

section Assignments

variable [DecidableEq Head] [DecidableEq Elm]

namespace Tailqs

/-- Assign to the pointer at a link. -/
def setTarget (q : Tailqs Head Elm) (link : Link Head Elm) (elm : Option Elm) : Tailqs Head Elm :=
  { q with links := q.links.setTarget link elm }

/-- Assign to `tqe_prev`. -/
def setPrev (q : Tailqs Head Elm) (elm : Elm) (link : Link Head Elm) : Tailqs Head Elm :=
  { q with links := q.links.setBack elm link }

/-- Assign to `tqh_last`. -/
def setLast (q : Tailqs Head Elm) (head : Head) (link : Link Head Elm) : Tailqs Head Elm :=
  { q with tqhLast := Function.update q.tqhLast head link }

section

variable (q : Tailqs Head Elm)

@[simp] theorem setTarget_links (link : Link Head Elm) (elm : Option Elm) :
    (q.setTarget link elm).links = q.links.setTarget link elm := rfl

@[simp] theorem setTarget_tqhLast (link : Link Head Elm) (elm : Option Elm) :
    (q.setTarget link elm).tqhLast = q.tqhLast := rfl

omit [DecidableEq Head] in
@[simp] theorem setPrev_links (elm : Elm) (link : Link Head Elm) :
    (q.setPrev elm link).links = q.links.setBack elm link := rfl

omit [DecidableEq Head] in
@[simp] theorem setPrev_tqhLast (elm : Elm) (link : Link Head Elm) :
    (q.setPrev elm link).tqhLast = q.tqhLast :=
  rfl

omit [DecidableEq Elm] in
@[simp] theorem setLast_links (head : Head) (link : Link Head Elm) :
    (q.setLast head link).links = q.links :=
  rfl

omit [DecidableEq Elm] in
@[simp] theorem setLast_tqhLast_self (head : Head) (link : Link Head Elm) :
    (q.setLast head link).tqhLast head = link := by
  simp [setLast]

omit [DecidableEq Elm] in
theorem setLast_tqhLast_of_ne {head other : Head} (h : head ≠ other) (link : Link Head Elm) :
    (q.setLast other link).tqhLast head = q.tqhLast head := by
  simp [setLast, h]

end

end Tailqs

/-- `TAILQ_INIT`, which also says what `TAILQ_HEAD_INITIALIZER` leaves.  [SRC queue.h:396-397, 477-480] -/
def tailqInit (q : Tailqs Head Elm) (head : Head) : Tailqs Head Elm :=
  (q.setTarget (.first head) none).setLast head (.first head)

/-- [SRC queue.h:482-491] -/
def tailqInsertHead (q : Tailqs Head Elm) (head : Head) (elm : Elm) : Tailqs Head Elm :=
  let q := q.setTarget (.next elm) (tailqFirst q head)
  let q := match tailqNext q elm with
    | some _ =>
        match tailqFirst q head with
        | some first => q.setPrev first (.next elm)
        | none => q
    | none => q.setLast head (.next elm)
  (q.setTarget (.first head) (some elm)).setPrev elm (.first head)

/-- [SRC queue.h:493-499] -/
def tailqInsertTail (q : Tailqs Head Elm) (head : Head) (elm : Elm) : Tailqs Head Elm :=
  let q := q.setTarget (.next elm) none
  let q := q.setPrev elm (q.tqhLast head)
  let q := q.setTarget (q.tqhLast head) (some elm)
  q.setLast head (.next elm)

/-- [SRC queue.h:521-531] -/
def tailqRemove (q : Tailqs Head Elm) (head : Head) (elm : Elm) : Tailqs Head Elm :=
  let q := match tailqNext q elm with
    | some next => q.setPrev next (q.links.back elm)
    | none => q.setLast head (q.links.back elm)
  q.setTarget (q.links.back elm) (tailqNext q elm)

end Assignments

/-! ### Loops over a queue

`next` reads the entry of an element in the state of the loop, and the body says whether it breaks.  What is
left is the state and the loop's variable, `none` if the loop has come to the end of the queue.  A loop that
has not ended after the given number of rounds has no result. -/

section Loops

variable {σ : Type*} (next : σ → Elm → Option Elm) (body : σ → Elm → σ × Bool)

/-- [SRC queue.h:116-119, 419-422] -/
def foreach : Nat → σ → Option Elm → Option (σ × Option Elm)
  | _, s, none => some (s, none)
  | 0, _, some _ => none
  | rounds + 1, s, some var =>
      match body s var with
      | (s, true) => some (s, some var)
      | (s, false) => foreach rounds s (next s var)

/-- The next element is read before the body runs.  [SRC queue.h:424-427] -/
def foreachSafe : Nat → σ → Option Elm → Option (σ × Option Elm)
  | _, s, none => some (s, none)
  | 0, _, some _ => none
  | rounds + 1, s, some var =>
      let tmp := next s var
      match body s var with
      | (s, true) => some (s, some var)
      | (s, false) => foreachSafe rounds s tmp

end Loops

end RumpBaremetal
