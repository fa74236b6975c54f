/-!
# Channels

A channel holds what was sent and not received yet, in order and at most `capacity` items of it.
Once its sender has gone nothing more can be sent, but what it holds can still be received.
-/

namespace Chip8

structure Channel (α : Type) (capacity : Nat) where
  queue : List α
  isOpen : Bool
  deriving DecidableEq, Repr

/-- What becomes of an item that is sent. -/
inductive Delivery where
  | sent
  /-- The item is lost: there is no room for it. -/
  | full
  /-- The item is lost: the sender had gone. -/
  | closed
  deriving DecidableEq, Repr

/-- What a receiver finds. -/
inductive Reception (α : Type) where
  | item (a : α)
  /-- There is nothing, but something may still come. -/
  | empty
  /-- There is nothing and the sender has gone. -/
  | disconnected
  deriving DecidableEq, Repr

namespace Channel

variable {α : Type} {capacity : Nat}

def new : Channel α capacity :=
  ⟨[], true⟩

instance : Inhabited (Channel α capacity) :=
  ⟨new⟩

def send (c : Channel α capacity) (a : α) : Delivery × Channel α capacity :=
  if c.isOpen then
    if c.queue.length < capacity then (.sent, { c with queue := c.queue ++ [a] }) else (.full, c)
  else (.closed, c)

def close (c : Channel α capacity) : Channel α capacity :=
  { c with isOpen := false }

def receive (c : Channel α capacity) : Reception α × Channel α capacity :=
  match c.queue with
  | a :: rest => (.item a, { c with queue := rest })
  | [] => (if c.isOpen then .empty else .disconnected, c)

def drain (c : Channel α capacity) : List α × Channel α capacity :=
  (c.queue, { c with queue := [] })

theorem length_queue_send {c : Channel α capacity} {a : α} (h : c.queue.length ≤ capacity) :
    (c.send a).2.queue.length ≤ capacity := by
  unfold send
  split
  · split
    · simp only [List.length_append, List.length_singleton]
      omega
    · exact h
  · exact h

end Channel

end Chip8
