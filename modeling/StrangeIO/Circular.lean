-- The circular buffer (buffer/circular.hpp) and the calls on it. `none` is
-- what the language leaves undefined, or a loop that does not end.
import StrangeIO.CacheManager
import StrangeIO.Transition

namespace strangeio.buffer

variable {α : Type}

/-- The number of values of a `size_type`; the positions are `unsigned int`. -/
def u64 : Nat := 18446744073709551616

structure circular (α : Type) where
  m_start : Nat
  m_end : Nat
  m_size : Nat
  m_capacity : Nat
  m_buffer : List α
deriving DecidableEq, Repr

namespace circular

/-- The buffer is allocated with whatever stands there. -/
def new (capacity : Nat) (raw : Nat → α) : circular α where
  m_start := 0
  m_end := 0
  m_size := 0
  m_capacity := capacity
  m_buffer := (List.range capacity).map raw

/-- The first `m_size` slots are copied, wherever the start is. To copy more
than there are is undefined. -/
def reserve (new_cap : Nat) (raw : Nat → α) (b : circular α) : Option (circular α) :=
  if new_cap ≤ b.m_capacity then some b
  else if b.m_size ≤ b.m_buffer.length then
    some { b with
      m_capacity := new_cap
      m_buffer := b.m_buffer.take b.m_size ++
        (List.range' b.m_size (new_cap - b.m_size)).map raw }
  else none

/-! ## The members -/

def increment (b : circular α) : Option (Nat × circular α) :=
  -- a remainder by zero is undefined
  if b.m_capacity = 0 then none
  else
    let size := (b.m_size + 1) % u64
    some (b.m_end,
      { b with
        m_end := (b.m_end + 1) % memory.u32 % b.m_capacity
        m_size := if b.m_capacity < size then b.m_capacity else size })

def decrement (b : circular α) : Option (Nat × circular α) :=
  if b.m_capacity = 0 then none
  else
    some (b.m_start,
      { b with
        m_start := (b.m_start + 1) % memory.u32 % b.m_capacity
        m_size := (b.m_size + (u64 - 1)) % u64 })

def load (b : circular α) (n : Nat) : Option α := b.m_buffer[n]?

def store (b : circular α) (n : Nat) (item : α) : Option (circular α) :=
  if n < b.m_buffer.length then some { b with m_buffer := b.m_buffer.set n item } else none

def size (b : circular α) : Nat := b.m_size

def empty (b : circular α) : Bool := b.m_size = 0

def clear (b : circular α) : circular α := { b with m_size := 0, m_start := 0, m_end := 0 }

def push_back (item : α) (b : circular α) : Option (circular α) := do
  let (n, b) ← b.increment
  b.store n item

/-- The counter of the loop is an `unsigned int`, which never reaches a greater count. -/
def push_many (items : List α) (b : circular α) : Option (circular α) :=
  if items.length < memory.u32 then items.foldlM (fun b item => b.push_back item) b else none

def front (b : circular α) : Option α := b.load b.m_start

def pop_front (b : circular α) : Option (circular α) :=
  if b.m_size = 0 then some b else b.decrement.map Prod.snd

/-- One turn of the loop of `pop_many`. -/
def copy_front (b : circular α) : Option (α × circular α) := do
  let (n, b) ← b.decrement
  let item ← b.load n
  some (item, b)

/-- `moved` is what a move leaves behind in the buffer. -/
def move_front (moved : α → α) (b : circular α) : Option (α × circular α) := do
  let (n, b) ← b.decrement
  let item ← b.load n
  let b ← b.store n (moved item)
  some (item, b)

/-- The loops of `pop_many` and `move_many`, with what one turn does. -/
def take_many (turn : circular α → Option (α × circular α)) :
    Nat → circular α → Option (List α × circular α)
  | 0, b => some ([], b)
  | count + 1, b => do
    let (item, b) ← turn b
    let (items, b) ← take_many turn count b
    some (item :: items, b)

/-- `pop_many` and `move_many`. Their counter is an `unsigned int` too. -/
def many (turn : circular α → Option (α × circular α)) (count : Nat) (b : circular α) :
    Option (List α × circular α) :=
  if b.m_size = 0 then some ([], b)
  else if count < memory.u32 then take_many turn count b
  else none

def pop_many (count : Nat) (b : circular α) : Option (List α × circular α) :=
  b.many copy_front count

def move_many (moved : α → α) (count : Nat) (b : circular α) : Option (List α × circular α) :=
  b.many (move_front moved) count

/-- The reference that `at` returns, as its slot and the item there, or the
text of the `out_of_range` that it throws. -/
def at_ (pos : Nat) (b : circular α) : Option (Except String (Nat × α)) :=
  if b.m_size < pos then some (.error "Position out of range [siobuf::ciruclar]")
  else if b.m_capacity = 0 then none
  else
    let p := (b.m_start + pos % b.m_capacity) % u64
    (b.load p).map fun item => .ok (p, item)

/-- `operator[]`. -/
def subscript (pos : Nat) (b : circular α) : Option (Except String (Nat × α)) := b.at_ pos

/-! ## The calls -/

inductive call (α : Type) where
  | push_back (item : α)
  | push_many (items : List α)
  | front
  | pop_front
  | pop_many (count : Nat)
  | move_front
  | move_many (count : Nat)
  | size
  | empty
  | clear
deriving DecidableEq, Repr

/-- What a call returns, or writes to its destination. -/
inductive answer (α : Type) where
  | done
  | item (x : α)
  | items (xs : List α)
  | size (n : Nat)
  | empty (b : Bool)
deriving DecidableEq, Repr

def perform (moved : α → α) (b : circular α) : call α → Option (answer α × circular α)
  | .push_back item => (b.push_back item).map fun b => (.done, b)
  | .push_many items => (b.push_many items).map fun b => (.done, b)
  | .front => b.front.map fun item => (.item item, b)
  | .pop_front => b.pop_front.map fun b => (.done, b)
  | .pop_many count => (b.pop_many count).map fun (items, b) => (.items items, b)
  | .move_front => (b.move_front moved).map fun (item, b) => (.item item, b)
  | .move_many count => (b.move_many moved count).map fun (items, b) => (.items items, b)
  | .size => some (.size b.size, b)
  | .empty => some (.empty b.empty, b)
  | .clear => some (.done, b.clear)

/-- The items that a call pushes. -/
def call.pushed : call α → List α
  | .push_back item => [item]
  | .push_many items => items
  | _ => []

/-- How many items a call pops. -/
def call.count : call α → Nat
  | .pop_front | .move_front => 1
  | .pop_many count | .move_many count => count
  | _ => 0

def call.clears : call α → Bool
  | .clear => true
  | _ => false

/-- The items that a call takes off the buffer, of which `pop_front` shows none. -/
def popped (b : circular α) : call α → answer α → List α
  | .pop_front, _ => if b.m_size = 0 then [] else b.front.toList
  | .move_front, .item x => [x]
  | .pop_many _, .items xs => xs
  | .move_many _, .items xs => xs
  | _, _ => []

end circular

end strangeio.buffer
