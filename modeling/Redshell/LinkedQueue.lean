import Redshell.Command
import Redshell.Linked

/-! The queue of queue.c in memory, and the list of commands that it stands for. -/
namespace Redshell.LinkedQueue

abbrev Addr := UInt64

def null : Addr := 0

/-- `queue_node_t`, over the data `δ` and the functions `φ` that free it. -/
structure QueueNode (δ φ : Type) where
  data : δ
  next : Addr
  freeFunction : φ

abbrev Heap (δ φ : Type) := Addr → Option (QueueNode δ φ)

/-- `queue_t`, with the memory its nodes are in. -/
structure QueueT (δ φ : Type) where
  heap : Heap δ φ
  count : UInt64
  head : Addr
  tail : Addr

variable {δ φ : Type}

def queueNew (heap : Heap δ φ) : QueueT δ φ where
  heap := heap
  count := 0
  head := null
  tail := null

/-- What a pointer refers to; a NULL or a freed one refers to nothing. -/
def QueueT.deref (queue : QueueT δ φ) (p : Addr) : Option (QueueNode δ φ) :=
  if p = null then none else queue.heap p

/-- `node` is what `malloc` returned; the result is none where a pointer refers to nothing. -/
def queueInsert (queue : QueueT δ φ) (node : Addr) (data : δ) (freeNode : φ) :
    Option (QueueT δ φ) :=
  let made : QueueNode δ φ := { data := data, next := null, freeFunction := freeNode }
  let queue := { queue with heap := Function.update queue.heap node (some made) }
  if queue.tail = null then
    some { queue with tail := node, head := node, count := queue.count + 1 }
  else do
    let last ← queue.deref queue.tail
    return { queue with
      heap := Function.update queue.heap queue.tail (some { last with next := node })
      tail := node
      count := queue.count + 1 }

/-- The data popped, none for NULL, and the queue without it. -/
def queuePop (queue : QueueT δ φ) : Option (Option δ × QueueT δ φ) :=
  if queue.count = 0 then some (none, queue)
  else do
    let node ← queue.deref queue.head
    let next := node.next
    let popped := { queue with
      heap := Function.update queue.heap queue.head none
      head := next
      count := queue.count - 1 }
    return (some node.data, if next = null then { popped with tail := null } else popped)

/-- The loop of `queueFree`, for at most so many turns: the calls of the nodes' functions. -/
def freeLoop : Nat → QueueT δ φ → Option (List (φ × δ) × QueueT δ φ)
  | 0, _ => none
  | n + 1, queue =>
    if 0 < queue.count then do
      let node ← queue.deref queue.head
      let freed := { queue with
        heap := Function.update queue.heap queue.head none
        head := node.next
        count := queue.count - 1 }
      let rest ← freeLoop n freed
      return ((node.freeFunction, node.data) :: rest.1, rest.2)
    else some ([], queue)

/-- The calls that `queueFree` makes, and the memory it leaves. -/
def queueFree (queue : QueueT δ φ) : Option (List (φ × δ) × Heap δ φ) :=
  (freeLoop (queue.count.toNat + 1) queue).map fun freed => (freed.1, freed.2.heap)

/-! Runs of insertions and pops. -/

inductive Op (δ φ : Type) where
  | insert (node : Addr) (data : δ) (freeNode : φ)
  | pop

/-- What a pop returns, nothing for an insertion. -/
def Op.run (queue : QueueT δ φ) : Op δ φ → Option (List (Option δ) × QueueT δ φ)
  | insert node data freeNode => (queueInsert queue node data freeNode).map ([], ·)
  | pop => (queuePop queue).map fun popped => ([popped.1], popped.2)

def runOps : QueueT δ φ → List (Op δ φ) → Option (List (Option δ) × QueueT δ φ)
  | queue, [] => some ([], queue)
  | queue, op :: ops => do
    let done ← op.run queue
    let rest ← runOps done.2 ops
    return (done.1 ++ rest.1, rest.2)

/-- `malloc` succeeds: it returns memory that is not in use. -/
def Op.Granted (queue : QueueT δ φ) : Op δ φ → Prop
  | insert node _ _ => node ≠ null ∧ queue.heap node = none
  | pop => True

/-- Every allocation of the run succeeds. -/
def Granted : QueueT δ φ → List (Op δ φ) → Prop
  | _, [] => True
  | queue, op :: ops => op.Granted queue ∧ ∀ done ∈ op.run queue, Granted done.2 ops

instance (queue : QueueT δ φ) (op : Op δ φ) : Decidable (op.Granted queue) :=
  match op with
  | .insert node _ _ => inferInstanceAs (Decidable (node ≠ null ∧ queue.heap node = none))
  | .pop => inferInstanceAs (Decidable True)

def decidableGranted : (queue : QueueT δ φ) → (ops : List (Op δ φ)) → Decidable (Granted queue ops)
  | _, [] => inferInstanceAs (Decidable True)
  | queue, op :: ops =>
    have : DecidablePred fun done : List (Option δ) × QueueT δ φ => Granted done.2 ops :=
      fun done => decidableGranted done.2 ops
    inferInstanceAs (Decidable (op.Granted queue ∧ ∀ done ∈ op.run queue, Granted done.2 ops))

instance (queue : QueueT δ φ) (ops : List (Op δ φ)) : Decidable (Granted queue ops) :=
  decidableGranted queue ops

/-- The same operations on a list, with the functions that free its elements. -/
def Op.apply (xs : List (δ × φ)) : Op δ φ → List (Option δ) × List (δ × φ)
  | insert _ data freeNode => ([], xs ++ [(data, freeNode)])
  | pop => ([xs.head?.map Prod.fst], xs.tail)

def fifo : List (δ × φ) → List (Op δ φ) → List (Option δ) × List (δ × φ)
  | xs, [] => ([], xs)
  | xs, op :: ops => ((op.apply xs).1 ++ (fifo (op.apply xs).2 ops).1, (fifo (op.apply xs).2 ops).2)

/-- The data inserted by a run. -/
def inserted : List (Op δ φ) → List δ
  | [] => []
  | .insert _ data _ :: ops => data :: inserted ops
  | .pop :: ops => inserted ops

/-! What the memory of a queue looks like. -/

def layout (δ φ : Type) : Layout Addr (QueueNode δ φ) (δ × φ) where
  null := null
  next := QueueNode.next
  payload := fun node => (node.data, node.freeFunction)

/-- The nodes from the head on, each with its address, as many as the count says. -/
structure Chained (queue : QueueT δ φ) (cells : List (Addr × δ × φ)) : Prop where
  linked : (layout δ φ).Linked queue.heap queue.head cells
  distinct : (cells.map Prod.fst).Nodup
  count : queue.count.toNat = cells.length

/-- The last node is the tail. -/
structure Holds (queue : QueueT δ φ) (cells : List (Addr × δ × φ)) : Prop
    extends Chained queue cells where
  tail : queue.tail = (cells.getLast?.map Prod.fst).getD null

variable {queue queue' : QueueT δ φ} {cells : List (Addr × δ × φ)} {heap : Heap δ φ} {node : Addr}
  {data : δ} {freeNode : φ} {xs : List (δ × φ)} {ops : List (Op δ φ)} {n : Nat}

theorem holds_queueNew (heap : Heap δ φ) : Holds (queueNew heap) [] :=
  ⟨⟨rfl, List.nodup_nil, rfl⟩, rfl⟩

/-- There are fewer nodes than addresses, so a count of them never wraps around. -/
theorem length_lt {p : Addr} (hlinked : (layout δ φ).Linked heap p cells)
    (hdistinct : (cells.map Prod.fst).Nodup) : cells.length < 2 ^ 64 := by
  have hinj : ((cells.map Prod.fst).map UInt64.toNat).Nodup :=
    hdistinct.map fun _ _ => UInt64.toNat_inj.mp
  have hsub : ((cells.map Prod.fst).map UInt64.toNat).toFinset ⊆
      (Finset.range (2 ^ 64)).erase 0 := by
    intro m hm
    obtain ⟨a, ha, rfl⟩ := List.mem_map.mp (List.mem_toFinset.mp hm)
    refine Finset.mem_erase.mpr ⟨fun hzero => ?_, Finset.mem_range.mpr a.toNat_lt⟩
    exact hlinked.ne_null ha (UInt64.toNat_inj.mp hzero)
  have hcard := Finset.card_le_card hsub
  rw [List.toFinset_card_of_nodup hinj, List.length_map, List.length_map,
    Finset.card_erase_of_mem (Finset.mem_range.mpr (by omega)), Finset.card_range] at hcard
  omega

theorem deref_eq (h : node ≠ null) : queue.deref node = queue.heap node := if_neg h

namespace Chained

theorem ne_null (h : Chained queue cells) {a : Addr} (ha : a ∈ cells.map Prod.fst) : a ≠ null :=
  h.linked.ne_null ha

theorem count_eq_zero_iff (h : Chained queue cells) : queue.count = 0 ↔ cells = [] := by
  rw [← List.length_eq_zero_iff, ← h.count, ← UInt64.toNat_inj]
  rfl

theorem head_eq_null_iff (h : Chained queue cells) : queue.head = null ↔ cells = [] := by
  constructor
  · intro hhead
    have hlinked := h.linked
    rw [hhead] at hlinked
    exact hlinked.eq_nil
  · rintro rfl
    exact h.linked

/-- The first node is unlinked. -/
theorem tail_linked {a : Addr} {v : δ × φ} (h : Chained queue ((a, v) :: cells)) :
    ∃ node, queue.deref queue.head = some node ∧ (node.data, node.freeFunction) = v ∧
      (layout δ φ).Linked (Function.update queue.heap queue.head none) node.next cells := by
  obtain ⟨hhead, hne, node, hnode, hpayload, hlinked⟩ := h.linked
  obtain ⟨hnot, _⟩ := List.nodup_cons.mp h.distinct
  refine ⟨node, ?_, hpayload, hlinked.congr ?_⟩
  · rw [hhead, deref_eq hne, hnode]
  · intro b hb
    apply Function.update_of_ne
    rintro rfl
    exact hnot (hhead ▸ hb)

theorem count_pred {a : Addr} {v : δ × φ} (h : Chained queue ((a, v) :: cells)) :
    (queue.count - 1).toNat = cells.length := by
  have hcount := h.count
  rw [List.length_cons] at hcount
  have hle : (1 : UInt64) ≤ queue.count := UInt64.le_iff_toNat_le.mpr (by
    rw [hcount, UInt64.toNat_one]
    omega)
  rw [UInt64.toNat_sub_of_le _ _ hle, hcount, UInt64.toNat_one]
  omega

/-- Every turn of the loop calls the function of the first node and frees the node. -/
theorem freeLoop_spec (n : Nat) (h : Chained queue cells) (hn : cells.length < n) :
    ∃ queue', freeLoop n queue = some (cells.map fun cell => (cell.2.2, cell.2.1), queue') ∧
      ∀ a, queue'.heap a = if a ∈ cells.map Prod.fst then none else queue.heap a := by
  induction n generalizing queue cells with
  | zero => omega
  | succ n ih =>
    cases cells with
    | nil =>
      have hzero : ¬ 0 < queue.count := by
        rw [h.count_eq_zero_iff.mpr rfl]
        decide
      exact ⟨queue, if_neg hzero, fun a => rfl⟩
    | cons cell cells =>
      obtain ⟨a, v⟩ := cell
      have hpos : 0 < queue.count := by
        rw [UInt64.lt_iff_toNat_lt, h.count]
        exact Nat.succ_pos _
      obtain ⟨node, hnode, rfl, hlinked⟩ := h.tail_linked
      have hhead := h.linked.1
      have hrest : Chained ⟨Function.update queue.heap queue.head none, queue.count - 1, node.next,
          queue.tail⟩ cells :=
        ⟨hlinked, (List.nodup_cons.mp h.distinct).2, h.count_pred⟩
      obtain ⟨queue', hloop, hheap⟩ := ih hrest (Nat.lt_of_succ_lt_succ hn)
      refine ⟨queue', ?_, fun b => ?_⟩
      · rw [freeLoop, if_pos hpos, hnode]
        dsimp only [Option.bind_eq_bind, Option.bind_some]
        rw [hloop]
        rfl
      · rw [hheap, List.map_cons]
        by_cases hb : b ∈ cells.map Prod.fst
        · rw [if_pos hb, if_pos (List.mem_cons_of_mem _ hb)]
        · rw [if_neg hb]
          by_cases hba : b = a
          · rw [if_pos (hba ▸ List.mem_cons_self), hba, ← hhead]
            exact Function.update_self _ _ _
          · have hnot : b ∉ a :: cells.map Prod.fst := fun hmem =>
              (List.mem_cons.mp hmem).elim hba hb
            rw [if_neg hnot]
            exact Function.update_of_ne (fun he => hba (he.trans hhead)) _ _

end Chained

namespace Holds

theorem tail_eq_null_iff (h : Holds queue cells) : queue.tail = null ↔ cells = [] := by
  rw [h.tail]
  constructor
  · intro htail
    cases hlast : cells.getLast? with
    | none => exact List.getLast?_eq_none_iff.mp hlast
    | some cell =>
      rw [hlast] at htail
      exact absurd htail (h.ne_null (List.mem_map_of_mem (List.mem_of_getLast? hlast)))
  · rintro rfl
    rfl

/-- A node is appended: the last one is made to link to it, if there is one. -/
theorem insert (h : Holds queue cells) (hnode : node ≠ null) (hfree : queue.heap node = none)
    (data : δ) (freeNode : φ) :
    ∃ queue', queueInsert queue node data freeNode = some queue' ∧
      Holds queue' (cells ++ [(node, data, freeNode)]) := by
  have hfresh : node ∉ cells.map Prod.fst := fun hmem => h.linked.allocated hmem hfree
  have hdistinct : ((cells ++ [(node, data, freeNode)]).map Prod.fst).Nodup := by
    rw [List.map_append]
    refine List.nodup_append.mpr ⟨h.distinct, List.nodup_singleton node, ?_⟩
    intro a ha b hb hab
    rw [hab, List.mem_singleton.mp hb] at ha
    exact hfresh ha
  have hholds : ∀ heap' head', (layout δ φ).Linked heap' head'
      (cells ++ [(node, data, freeNode)]) →
      Holds ⟨heap', queue.count + 1, head', node⟩ (cells ++ [(node, data, freeNode)]) := by
    intro heap' head' hlinked
    refine ⟨⟨hlinked, hdistinct, ?_⟩, ?_⟩
    · have hlt := length_lt hlinked hdistinct
      rw [List.length_append, List.length_singleton] at hlt ⊢
      rw [UInt64.toNat_add, h.count, UInt64.toNat_one, Nat.mod_eq_of_lt hlt]
    · rw [List.getLast?_concat]
      rfl
  rcases List.eq_nil_or_concat cells with rfl | ⟨front, ⟨last, v⟩, rfl⟩
  · refine ⟨_, if_pos (h.tail_eq_null_iff.mpr rfl), hholds _ _ ?_⟩
    exact ⟨rfl, hnode, _, Function.update_self _ _ _, rfl, rfl⟩
  · rw [List.concat_eq_append] at h hfresh hholds ⊢
    have htail : queue.tail = last := by
      rw [h.tail, List.getLast?_concat]
      rfl
    have hmem : last ∈ (front ++ [(last, v)]).map Prod.fst := by simp
    have hne : queue.tail ≠ null := htail ▸ h.ne_null hmem
    obtain ⟨lastNode, hlastNode, hpayload, _⟩ := h.linked.last
    have hlast : last ≠ node := fun he => hfresh (he ▸ hmem)
    rw [List.map_append] at hfresh
    have hdistinct' := h.distinct
    rw [List.map_append] at hdistinct'
    have hlinked := h.linked.snoc { lastNode with next := node } ⟨data, null, freeNode⟩
      hdistinct' hpayload rfl hnode hfresh rfl rfl
    refine ⟨_, ?_, hholds _ _ hlinked⟩
    rw [queueInsert]
    dsimp only
    rw [if_neg hne, deref_eq hne]
    dsimp only
    rw [htail, Function.update_of_ne hlast, hlastNode]
    rfl

theorem pop_nil (h : Holds queue []) : queuePop queue = some (none, queue) :=
  if_pos (h.count_eq_zero_iff.mpr rfl)

theorem pop_cons {a : Addr} (h : Holds queue ((a, data, freeNode) :: cells)) :
    ∃ queue', queuePop queue = some (some data, queue') ∧ Holds queue' cells := by
  have hcount : queue.count ≠ 0 := fun he => by simpa using h.count_eq_zero_iff.mp he
  obtain ⟨node, hnode, hpayload, hlinked⟩ := h.tail_linked
  have hdata : node.data = data := congrArg Prod.fst hpayload
  have hdistinct := (List.nodup_cons.mp h.distinct).2
  have hpop : queuePop queue = some (some node.data,
      if node.next = null then
        ⟨Function.update queue.heap queue.head none, queue.count - 1, node.next, null⟩
      else ⟨Function.update queue.heap queue.head none, queue.count - 1, node.next,
        queue.tail⟩) := by
    rw [queuePop, if_neg hcount, hnode]
    rfl
  rw [hdata] at hpop
  refine ⟨_, hpop, ?_⟩
  by_cases hnext : node.next = null
  · rw [if_pos hnext]
    have hnil : cells = [] := by
      rw [hnext] at hlinked
      exact hlinked.eq_nil
    subst hnil
    exact ⟨⟨hlinked, hdistinct, h.count_pred⟩, rfl⟩
  · rw [if_neg hnext]
    refine ⟨⟨hlinked, hdistinct, h.count_pred⟩, ?_⟩
    have htail := h.tail
    cases cells with
    | nil => exact absurd hlinked hnext
    | cons cell cells => rwa [List.getLast?_cons_cons] at htail

end Holds

/-- One operation does on the memory what it does on the list. -/
theorem Op.run_spec (h : Holds queue cells) (op : Op δ φ) (hgranted : op.Granted queue) :
    ∃ queue' cells', op.run queue = some ((op.apply (cells.map Prod.snd)).1, queue') ∧
      Holds queue' cells' ∧ cells'.map Prod.snd = (op.apply (cells.map Prod.snd)).2 := by
  cases op with
  | insert node data freeNode =>
    obtain ⟨hnode, hfree⟩ := hgranted
    obtain ⟨queue', hinsert, hholds⟩ := h.insert hnode hfree data freeNode
    refine ⟨queue', _, ?_, hholds, ?_⟩
    · rw [run, hinsert]
      rfl
    · rw [List.map_append]
      rfl
  | pop =>
    cases cells with
    | nil =>
      refine ⟨queue, [], ?_, h, rfl⟩
      rw [run, h.pop_nil]
      rfl
    | cons cell cells =>
      obtain ⟨a, data, freeNode⟩ := cell
      obtain ⟨queue', hpop, hholds⟩ := h.pop_cons
      refine ⟨queue', cells, ?_, hholds, rfl⟩
      rw [run, hpop]
      rfl

/-- So does a run of operations. -/
theorem runOps_spec (h : Holds queue cells) (hgranted : Granted queue ops) :
    ∃ queue' cells', runOps queue ops = some ((fifo (cells.map Prod.snd) ops).1, queue') ∧
      Holds queue' cells' ∧ cells'.map Prod.snd = (fifo (cells.map Prod.snd) ops).2 := by
  induction ops generalizing queue cells with
  | nil => exact ⟨queue, cells, rfl, h, rfl⟩
  | cons op ops ih =>
    obtain ⟨hop, hops⟩ := hgranted
    obtain ⟨queue₁, cells₁, hrun, hholds, hcells⟩ := Op.run_spec h op hop
    obtain ⟨queue₂, cells₂, hruns, hholds₂, hcells₂⟩ := ih hholds (hops _ hrun)
    rw [hcells] at hruns hcells₂
    refine ⟨queue₂, cells₂, ?_, hholds₂, hcells₂⟩
    rw [runOps, hrun]
    dsimp only [Option.bind_eq_bind, Option.bind_some]
    rw [hruns]
    rfl

/-- What was popped, and what is left, is what was there and what was inserted. -/
theorem fifo_inserted (xs : List (δ × φ)) (ops : List (Op δ φ)) :
    (fifo xs ops).1.reduceOption ++ (fifo xs ops).2.map Prod.fst =
      xs.map Prod.fst ++ inserted ops := by
  induction ops generalizing xs with
  | nil => simp [fifo, inserted]
  | cons op ops ih =>
    rw [fifo, List.reduceOption_append, List.append_assoc, ih]
    cases op with
    | insert node data freeNode => simp [Op.apply, inserted, List.reduceOption]
    | pop => cases xs <;> simp [Op.apply, inserted, List.reduceOption]

/-- In every run whose allocations succeed the queue is first in, first out, its count, head and
tail agree with its nodes, and releasing it calls the function of each node left, in order. -/
theorem queue_is_fifo (heap : Heap δ φ) (ops : List (Op δ φ))
    (hgranted : Granted (queueNew heap) ops) :
    ∃ queue cells, runOps (queueNew heap) ops = some ((fifo [] ops).1, queue) ∧
      cells.map Prod.snd = (fifo [] ops).2 ∧
      (fifo ([] : List (δ × φ)) ops).1.reduceOption ++ cells.map (·.2.1) = inserted ops ∧
      Holds queue cells ∧ (queue.head = null ↔ queue.count = 0) ∧
      (queue.tail = null ↔ queue.count = 0) ∧
      ∃ heap', queueFree queue = some (cells.map fun cell => (cell.2.2, cell.2.1), heap') ∧
        ∀ a, heap' a = if a ∈ cells.map Prod.fst then none else queue.heap a := by
  obtain ⟨queue, cells, hrun, hholds, hcells⟩ := runOps_spec (holds_queueNew heap) hgranted
  rw [List.map_nil] at hrun hcells
  have hinserted := fifo_inserted ([] : List (δ × φ)) ops
  rw [← hcells, List.map_map, List.map_nil, List.nil_append] at hinserted
  have hcount := hholds.toChained.count_eq_zero_iff
  obtain ⟨freed, hloop, hheap⟩ := hholds.toChained.freeLoop_spec (queue.count.toNat + 1)
    (Nat.lt_succ_of_le hholds.count.ge)
  refine ⟨queue, cells, hrun, hcells, hinserted, hholds, ?_, ?_, freed.heap, ?_, hheap⟩
  · rw [hholds.toChained.head_eq_null_iff, hcount]
  · rw [hholds.tail_eq_null_iff, hcount]
  · rw [queueFree, hloop]
    rfl

/-- Two commands are inserted and popped, and a third one comes into the memory of the first. -/
def refill : List (Op CString Unit) :=
  [.insert 16 (bytes "ls") (), .insert 48 (bytes "wc") (), .pop, .pop, .insert 16 (bytes "pwd") ()]

theorem queue_is_fifo_refill :
    ∃ queue cells, runOps (queueNew fun _ => none) refill = some ((fifo [] refill).1, queue) ∧
      cells.map Prod.snd = (fifo [] refill).2 ∧
      (fifo [] refill).1.reduceOption ++ cells.map (·.2.1) = inserted refill ∧
      Holds queue cells ∧ (queue.head = null ↔ queue.count = 0) ∧
      (queue.tail = null ↔ queue.count = 0) ∧
      ∃ heap', queueFree queue = some (cells.map fun cell => (cell.2.2, cell.2.1), heap') ∧
        ∀ a, heap' a = if a ∈ cells.map Prod.fst then none else queue.heap a :=
  queue_is_fifo (fun _ => none) refill (by decide +kernel)

/-! The queues of commands in the other modules are what this memory holds. -/

def contents (cells : List (Addr × Command × φ)) : Queue := cells.map fun cell => cell.2.1

theorem queueInsert_refines {queue : QueueT Command φ} {cells : List (Addr × Command × φ)}
    (h : Holds queue cells) (hnode : node ≠ null) (hfree : queue.heap node = none)
    (command : Command) (freeNode : φ) :
    ∃ queue' cells', queueInsert queue node command freeNode = some queue' ∧
      Holds queue' cells' ∧ contents cells' = Redshell.queueInsert (contents cells) command := by
  obtain ⟨queue', hinsert, hholds⟩ := h.insert hnode hfree command freeNode
  refine ⟨queue', _, hinsert, hholds, ?_⟩
  rw [contents, List.map_append]
  rfl

theorem queuePop_refines {queue : QueueT Command φ} {cells : List (Addr × Command × φ)}
    (h : Holds queue cells) :
    ∃ queue' cells', queuePop queue = some ((Redshell.queuePop (contents cells)).1, queue') ∧
      Holds queue' cells' ∧ contents cells' = (Redshell.queuePop (contents cells)).2 := by
  cases cells with
  | nil => exact ⟨queue, [], h.pop_nil, h, rfl⟩
  | cons cell cells =>
    obtain ⟨a, command, freeNode⟩ := cell
    obtain ⟨queue', hpop, hholds⟩ := h.pop_cons
    exact ⟨queue', cells, hpop, hholds, rfl⟩

end Redshell.LinkedQueue
