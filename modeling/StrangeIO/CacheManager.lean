-- The cache allocator, as memory/cache_manager.cpp has it: a table of block
-- handles, first-fit allocation of a run of blocks, and a free that links
-- the run back into the free blocks around it. The unsigned arithmetic is
-- modulo 2^32, and an address counts samples.
import Mathlib.Data.List.Basic

namespace strangeio.memory

/-- A `PcmSample*`: an address, or null. -/
abbrev PcmPtr := Option Nat

structure cache_handle where
  ptr : Nat
  in_use : Bool
  num_blocks : Nat
deriving DecidableEq, Repr

/-- The exception of an allocation that finds no run of free blocks. -/
structure cache_drain where
  m_component : String := "framework"
deriving DecidableEq, Repr

structure cache_manager where
  m_raw_cache : PcmPtr
  m_bound : Nat
  m_num_blocks : Nat
  m_block_size : Nat
  m_total : Int
  m_cache_size : Nat
  m_track_id : Int
  m_handles : List cache_handle
deriving DecidableEq, Repr

/-! ## Machine arithmetic -/

def u32 : Nat := 4294967296

def add32 (a b : Nat) : Nat := (a + b) % u32

def sub32 (a b : Nat) : Nat := (a + (u32 - b)) % u32

def mul32 (a b : Nat) : Nat := a * b % u32

/-- An `int` after arithmetic that wraps. -/
def int32 (x : Int) : Int := x.bmod u32

/-! ## Building -/

/-- The constructor. It leaves `m_bound` unset, so any value may stand there. -/
def cache_manager.make (num_blocks bound : Nat) : cache_manager where
  m_raw_cache := none
  m_bound := bound
  m_num_blocks := num_blocks
  m_block_size := 0
  m_total := 0
  m_cache_size := 0
  m_track_id := 1
  m_handles := []

/-- The handles that the loop of `build_cache` pushes, from block `i` on. -/
def build_handles (raw block_size : Nat) (i : Nat) : Nat → List cache_handle
  | 0 => []
  | nblocks + 1 =>
    { ptr := raw + mul32 i block_size, in_use := false, num_blocks := nblocks + 1 } ::
      build_handles raw block_size (i + 1) nblocks

/-- `raw` is the address that `new PcmSample[..]` gives. -/
def cache_manager.build_cache (c : cache_manager) (raw block_size : Nat) : cache_manager :=
  if c.m_raw_cache.isSome then c
  else
    let handles := c.m_handles ++ build_handles raw block_size 0 c.m_num_blocks
    { c with
      m_block_size := block_size
      m_raw_cache := some raw
      m_cache_size := mul32 block_size c.m_num_blocks
      m_handles := handles
      m_bound := (handles[c.m_num_blocks - 1]?.map (·.ptr)).getD c.m_bound }

/-! ## Allocation -/

/-- The loop of `allocate`. `toggle` counts down from `num` once the first
handle of the run is found; the rest of the run is taken without a look at it. -/
def allocate_loop (num : Nat) : Nat → PcmPtr → List cache_handle → PcmPtr × List cache_handle
  | _, ptr, [] => (ptr, [])
  | toggle, ptr, handle :: rest =>
    if toggle = 0 then (ptr, handle :: rest)
    else if toggle < num then
      let r := allocate_loop num (toggle - 1) ptr rest
      (r.1, { handle with in_use := true, num_blocks := toggle } :: r.2)
    else if !handle.in_use && num ≤ handle.num_blocks then
      let r := allocate_loop num (toggle - 1) (some handle.ptr) rest
      (r.1, { handle with in_use := true, num_blocks := num } :: r.2)
    else
      let r := allocate_loop num toggle ptr rest
      (r.1, handle :: r.2)

/-- `allocate`, with the state it leaves behind also when it throws. -/
def cache_manager.allocate (c : cache_manager) (num : Nat) :
    Except cache_drain PcmPtr × cache_manager :=
  let r := allocate_loop num num none c.m_handles
  let c := { c with m_handles := r.2 }
  match r.1 with
  | none => (.error {}, c)
  | some p => (.ok (some p), { c with m_total := int32 (c.m_total + num) })

/-- `alloc_raw`: the pointer or the exception, what `*id` holds afterwards,
and the state. A cache of size 0 gives null and does not write `*id`. -/
def cache_manager.alloc_raw (c : cache_manager) (num : Nat) (id : Int) :
    Except cache_drain PcmPtr × Int × cache_manager :=
  if c.m_cache_size = 0 then (.ok none, id, c)
  else
    let c := { c with m_track_id := c.m_track_id + 1 }
    let r := c.allocate num
    (r.1, c.m_track_id, r.2)

/-! ## Freeing -/

/-- What `m_handles[i]` reads. Past the table it reads what the memory there
happens to hold. -/
def handle_at (past : Nat → cache_handle) (hs : List cache_handle) (i : Nat) : cache_handle :=
  hs[i]?.getD (past i)

/-- The loop that frees and links the `blocks` handles from `index` on. A
write past the table changes no handle of it. -/
def free_blocks (index link : Nat) : Nat → List cache_handle → List cache_handle
  | 0, hs => hs
  | i + 1, hs =>
    (free_blocks index link i hs).modify (index + i)
      (fun handle => { handle with in_use := false, num_blocks := sub32 link i })

/-- The loop that relinks up the line, with `i` handles still to visit. -/
def relink_up : Nat → Nat → List cache_handle → List cache_handle
  | 0, _, hs => hs
  | i + 1, link, hs =>
    match hs[i]? with
    | none => hs
    | some handle =>
      if handle.in_use then hs
      else relink_up i (add32 link 1) (hs.set i { handle with num_blocks := link })

/-- Where a pointer falls in the table, when `free_raw` does not turn it away. -/
def cache_manager.index_of (c : cache_manager) (ptr : PcmPtr) : Option Nat :=
  match c.m_raw_cache, ptr with
  | some raw, some p =>
    if p < raw ∨ c.m_bound < p then none else some ((p - raw) / c.m_block_size)
  | _, _ => none

/-- The link count of the freed run: its blocks, and the free blocks after it. -/
def free_link (past : Nat → cache_handle) (hs : List cache_handle) (index blocks : Nat) : Nat :=
  let next := handle_at past hs (index + blocks)
  if !next.in_use then add32 blocks next.num_blocks else blocks

def cache_manager.free_raw (past : Nat → cache_handle) (c : cache_manager) (ptr : PcmPtr) :
    cache_manager :=
  match c.index_of ptr with
  | none => c
  | some index =>
    let blocks := (handle_at past c.m_handles index).num_blocks
    let link := free_link past c.m_handles index blocks
    let hs := free_blocks index link blocks c.m_handles
    { c with
      m_handles := relink_up (index + 1) link hs
      m_total := int32 (c.m_total - blocks) }

/-! ## The indices that the code uses -/

/-- The indices of `relink_up`. -/
def relink_indices : Nat → List cache_handle → List Nat
  | 0, _ => []
  | i + 1, hs =>
    match hs[i]? with
    | none => [i]
    | some handle => if handle.in_use then [i] else i :: relink_indices i hs

/-- Every index into `m_handles` that `free_raw` uses: the start of the run,
the handle after it, the freed run, and the handles up the line. -/
def cache_manager.free_raw_indices (past : Nat → cache_handle) (c : cache_manager)
    (ptr : PcmPtr) : List Nat :=
  match c.index_of ptr with
  | none => []
  | some index =>
    let blocks := (handle_at past c.m_handles index).num_blocks
    let link := free_link past c.m_handles index blocks
    [index, index + blocks] ++ (List.range blocks).map (index + ·) ++
      relink_indices (index + 1) (free_blocks index link blocks c.m_handles)

/-- The handles that the loop of `allocate` visits, from handle `i` on. -/
def allocate_loop_indices (num : Nat) : Nat → Nat → List cache_handle → List Nat
  | _, _, [] => []
  | toggle, i, handle :: rest =>
    if toggle = 0 then [i]
    else if toggle < num then i :: allocate_loop_indices num (toggle - 1) (i + 1) rest
    else if !handle.in_use && num ≤ handle.num_blocks then
      i :: allocate_loop_indices num (toggle - 1) (i + 1) rest
    else i :: allocate_loop_indices num toggle (i + 1) rest

def cache_manager.allocate_indices (c : cache_manager) (num : Nat) : List Nat :=
  allocate_loop_indices num num 0 c.m_handles

end strangeio.memory
