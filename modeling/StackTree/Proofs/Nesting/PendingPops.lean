import StackTree.Proofs.Nesting.Exchange
import StackTree.Proofs.Nesting.Simulation
import StackTree.Proofs.Ownership.Reach

/-!
# Counting pops is exact

Whether an operand has to wait depends on how many pops are under it. They are counted without
going into a tree that is said to have none, so a wrong mark on a node would hide the pops below it,
and a producer would be pulled to the wrong place. In a reachable routine no mark is wrong.

`Routine.pendingPops` goes down from operand to operand. The same count can be taken with a list of
the nodes still to be looked at, round by round (`Routine.countPops`); it takes one round for each
node at most.

## Main definitions

* `Routine.LooksAt`: the nodes that counting looks at.
* `Routine.countPops`: counting with a list of the nodes still to be looked at.

## Main results

* `Routine.pendingPops_congr`: nothing matters but the nodes that counting looks at.
* `Routine.Sound.countPops_eq`: counting round by round comes to an end with the same count.
* `Routine.Reachable.pendingPops_exact`: the count is that of the pops under a node.
-/

namespace StackTree

namespace Tree

mutual

/-- The count of pops counts `popIds`. -/
theorem length_popIds_singleton : (t : Tree) → (popIds [t]).length = t.popCount
  | node id kind e cs => by
    have hcs := length_popIds cs
    rw [popIds, List.length_map] at hcs ⊢
    rw [subtreesAll_singleton, subtrees, List.filter_append, List.length_append, hcs, popCount]
    by_cases hk : kind = .pop
    · simp [hk, Tree.kind, Nat.add_comm]
    · simp [hk, Tree.kind]

theorem length_popIds : (ts : List Tree) → (popIds ts).length = popCounts ts
  | [] => rfl
  | t :: ts => by
    rw [popIds_cons, List.length_append, length_popIds_singleton t, length_popIds ts, popCounts]

end

theorem popCounts_reverse (ts : List Tree) : popCounts ts.reverse = popCounts ts := by
  induction ts with
  | nil => rfl
  | cons t ts ih =>
    rw [List.reverse_cons, popCounts_append, ih, popCounts, popCounts, popCounts, Nat.add_zero,
      Nat.add_comm]

theorem sizes_reverse_append (ts us : List Tree) :
    sizes (ts.reverse ++ us) = sizes ts + sizes us := by
  have hperm := (forestNodes_perm ((List.reverse_perm ts).append_right us)).length_eq
  rwa [length_forestNodes, forestNodes_append, List.length_append, length_forestNodes,
    length_forestNodes] at hperm

end Tree

namespace Routine

open Runs
open StackTree.Tree (popCounts popCounts_append popCounts_reverse popIds sizes sizes_reverse_append)

variable {r s : Routine} {n m : NodeId}

/-! ## What counting looks at -/

/-- Counting the pops under `n` looks at `n`, and at the operands of a node that it looks at and
that is said to have pops. -/
inductive LooksAt (r : Routine) (n : NodeId) : NodeId → Prop where
  | self : LooksAt r n n
  | operand {m c : NodeId} {slot : Nat} (above : LooksAt r n m)
      (pops : (r.storedEffects m).pops = true) (sits : r.HasChild m slot c) : LooksAt r n c

theorem LooksAt.trans {c : NodeId} (hm : r.LooksAt n m) (hc : r.LooksAt m c) : r.LooksAt n c := by
  induction hc with
  | self => exact hm
  | operand _ pops sits ih => exact .operand ih pops sits

/-- Counting goes on to the operands of a node that is said to have pops. -/
theorem looksAt_of_mem {node : Node} {c : NodeId} (hn : r.get? n = some node)
    (hp : node.effects.pops = true) (hc : c ∈ node.children) : r.LooksAt n c := by
  obtain ⟨slot, hslot⟩ := hasChild_of_mem hn hc
  exact .operand .self (by rw [storedEffects_of_get? hn, hp]) hslot

theorem foldlM_pendingPops_congr {f g : NodeId → Except Fault Nat} {ns : List NodeId}
    (h : ∀ n ∈ ns, f n = g n) (start : Nat) :
    ns.foldlM (fun acc n => do return acc + (← f n)) start =
      ns.foldlM (fun acc n => do return acc + (← g n)) start := by
  induction ns generalizing start with
  | nil => rfl
  | cons n ns ih =>
    rw [List.foldlM_cons, List.foldlM_cons, h n (List.mem_cons_self ..)]
    congr
    funext acc
    exact ih (fun m hm => h m (List.mem_cons_of_mem n hm)) acc

theorem pendingPopsWithin_congr {bound : Nat} (h : ∀ m, r.LooksAt n m → s.get? m = r.get? m) :
    s.pendingPopsWithin bound n = r.pendingPopsWithin bound n := by
  induction bound generalizing n with
  | zero => rfl
  | succ bound ih =>
    have hself := h n .self
    rw [pendingPopsWithin, pendingPopsWithin]
    cases hn : r.get? n with
    | none =>
      rw [node_of_none hn, node_of_none (hself.trans hn)]
      rfl
    | some node =>
      rw [node_of_get? hn, node_of_get? (hself.trans hn), except_bind_ok, except_bind_ok]
      by_cases hp : node.effects.pops = true
      · rw [if_pos hp, if_pos hp]
        refine foldlM_pendingPops_congr (fun c hc => ih fun m hm => h m ?_) _
        exact (looksAt_of_mem hn hp hc).trans hm
      · rw [if_neg hp, if_neg hp]

/-- Nothing matters but the nodes that counting looks at: a routine with the same nodes there has the
same count, whatever its other nodes are. -/
theorem pendingPops_congr (hsize : s.nodes.size = r.nodes.size)
    (h : ∀ m, r.LooksAt n m → s.get? m = r.get? m) : s.pendingPops n = r.pendingPops n := by
  rw [pendingPops, pendingPops, pathBound, pathBound, hsize]
  exact pendingPopsWithin_congr h

/-! ## Counting round by round -/

/-- Counts the pops under the nodes of a list in so many rounds at most. A round takes the first node
off, and its operands come to the front, the last one first, unless the node is said to have no
pops. -/
def countPops (r : Routine) : (rounds : Nat) → List NodeId → (count : Nat) → Except Fault Nat
  | 0, _, _ => .error endlessPath
  | _ + 1, [], count => .ok count
  | rounds + 1, n :: rest, count => do
    let node ← r.node n
    if node.effects.pops then
      r.countPops rounds (node.children.reverse ++ rest)
        (if node.kind = .pop then count + 1 else count)
    else
      r.countPops rounds rest count

/-- One round for each node is enough, and one to see that the list is empty. -/
theorem Sound.countPops_eq (h : r.Sound) {rounds : Nat} {ns : List NodeId} {ts : List Tree}
    (hts : r.ShowsAll ns ts) (hrounds : sizes ts < rounds) (count : Nat) :
    r.countPops rounds ns count = .ok (count + popCounts ts) := by
  induction rounds generalizing ns ts count with
  | zero => omega
  | succ rounds ih =>
    cases hts with
    | nil => rfl
    | @cons n t ns ts head tail =>
      have hsound := h.tree_sound head
      cases head with
      | @node _ node us at_n below =>
        simp only [sizes, Tree.size] at hrounds
        rw [countPops, node_of_get? at_n, except_bind_ok, popCounts]
        by_cases hp : node.effects.pops = true
        · have hnext : r.ShowsAll (node.children.reverse ++ ns) (us.reverse ++ ts) := by
            have hshows : ∀ u ∈ us.reverse ++ ts, r.Shows u.id u := fun u hu => by
              rcases List.mem_append.mp hu with hu | hu
              · exact below.shows u (List.mem_reverse.mp hu)
              · exact tail.shows u hu
            have hall := showsAll_of_shows hshows
            rwa [List.map_append, List.map_reverse, below.map_id, tail.map_id] at hall
          rw [if_pos hp, ih hnext (by rw [sizes_reverse_append]; omega), popCounts_append,
            popCounts_reverse, Tree.popCount]
          split
          · exact congrArg Except.ok (by omega)
          · exact congrArg Except.ok (by omega)
        · rw [Bool.not_eq_true] at hp
          rw [if_neg (by simp [hp]), ih tail (by omega), hsound.popCount_eq_zero hp, Nat.zero_add]

/-! ## The count is exact -/

/--
The count of pops is exact. Under a live node of a reachable routine it comes out, and it is the
number of pops there. It is the same in every routine that has the same nodes where counting looks,
so nothing below a node that is said to have no pops plays a part. A list of nodes to be looked at
is empty after as many rounds as there are live nodes, with this count.
-/
theorem Reachable.pendingPops_exact (h : r.Reachable) (hn : r.isLive n = true) :
    ∃ pops : List NodeId, pops.Nodup ∧ (∀ m, m ∈ pops ↔ r.Under n m ∧ r.kind m = .ok .pop) ∧
      r.pendingPops n = .ok pops.length ∧
      (∀ s : Routine, s.nodes.size = r.nodes.size → (∀ m, r.LooksAt n m → s.get? m = r.get? m) →
        s.pendingPops n = .ok pops.length) ∧
      ∀ rounds, r.live < rounds → r.countPops rounds [n] 0 = .ok pops.length := by
  have hr := h.sound
  obtain ⟨t, ht⟩ := hr.exists_shows hn
  have hcount : r.pendingPops n = .ok (popIds [t]).length := by
    rw [hr.pendingPops_eq ht, Tree.length_popIds_singleton]
  refine ⟨popIds [t], ?_, fun m => ?_, hcount, fun s hsize hsame => ?_, fun rounds hrounds => ?_⟩
  · apply Tree.nodup_popIds
    rw [Tree.forestNodes_singleton]
    exact hr.nodes_nodup ht
  · rw [Tree.mem_popIds_iff, ← ht.mem_nodes_iff, ← Tree.map_id_subtrees]
    constructor
    · rintro ⟨u, hu, hk, rfl⟩
      refine ⟨List.mem_map_of_mem hu, ?_⟩
      rw [kind_of_shows (ht.of_mem_subtrees u hu), hk]
    · rintro ⟨hm, hk⟩
      obtain ⟨u, hu, rfl⟩ := List.mem_map.mp hm
      rw [kind_of_shows (ht.of_mem_subtrees u hu)] at hk
      exact ⟨u, hu, Except.ok.inj hk, rfl⟩
  · rw [pendingPops_congr hsize hsame, hcount]
  · have hsize : sizes [t] < rounds := by
      have := hr.size_le_live ht
      simp only [sizes]
      omega
    rw [hr.countPops_eq (.cons ht .nil) hsize, Tree.length_popIds, Nat.zero_add]

/-- A call on a sum of constants, a negation of a pop and a pop has two pops. That stays so when a
constant under the sum is turned into a pop behind the back of the sum. -/
theorem pendingPops_exact_past_quiet_sum :
    let build : Edit Unit := do
      let sum ← alloc (.binary .add) [← alloc (.const 1) [], ← alloc (.const 2) []]
      let negated ← alloc (.unary .neg) [← alloc .pop []]
      let _ ← alloc (.call "f" true) [sum, negated, ← alloc .pop []]
    let r := leftBy (build { name := "main" })
    let s := r.update ⟨0⟩ fun node => { node with kind := .pop }
    r.Reachable ∧ r.isLive ⟨6⟩ = true ∧ r.pendingPops ⟨6⟩ = .ok 2 ∧
      s.kind ⟨0⟩ = .ok .pop ∧ s.pendingPops ⟨6⟩ = .ok 2 ∧ r.countPops 8 [⟨6⟩] 0 = .ok 2 ∧
      ∃ pops : List NodeId, pops.length = 2 ∧
        ∀ m, m ∈ pops ↔ r.Under ⟨6⟩ m ∧ r.kind m = .ok .pop := by
  intro build r s
  have hreach : r.Reachable :=
    ⟨"main", Unit, build, .bind (.alloc _ _) fun _ => .bind (.alloc _ _) fun _ =>
      .bind (.alloc _ _) fun _ => .bind (.alloc _ _) fun _ => .bind (.alloc _ _) fun _ =>
        .bind (.alloc _ _) fun _ => .bind (.alloc _ _) fun _ => .pure _, rfl⟩
  have hlive : r.isLive ⟨6⟩ = true := by decide +kernel
  have hpops : r.pendingPops ⟨6⟩ = .ok 2 := by decide +kernel
  obtain ⟨pops, -, hmem, hcount, hsame, hrounds⟩ := Reachable.pendingPops_exact hreach hlive
  have htwo : pops.length = 2 := Except.ok.inj (hcount.symm.trans hpops)
  have hclosed : ∀ m ∈ [⟨6⟩, ⟨2⟩, ⟨4⟩, ⟨5⟩, ⟨3⟩], (r.storedEffects m).pops = true →
      ∀ c ∈ ((r.get? m).map Node.children).getD [], c ∈ [(⟨6⟩ : NodeId), ⟨2⟩, ⟨4⟩, ⟨5⟩, ⟨3⟩] := by
    decide +kernel
  have hlooks : ∀ m, r.LooksAt ⟨6⟩ m → m ∈ [(⟨6⟩ : NodeId), ⟨2⟩, ⟨4⟩, ⟨5⟩, ⟨3⟩] := by
    intro m hm
    induction hm with
    | self => exact List.mem_cons_self ..
    | @operand m c slot _ hp hsits ih =>
      obtain ⟨node, hget, hc⟩ := hsits
      apply hclosed m ih hp
      rw [hget]
      exact List.mem_of_getElem? hc
  have hs : s.pendingPops ⟨6⟩ = .ok pops.length := by
    refine hsame s (size_update ..) fun m hm => ?_
    rw [get?_update, if_neg]
    rintro rfl
    exact absurd (hlooks _ hm) (by decide)
  refine ⟨hreach, hlive, hpops, by decide +kernel, htwo ▸ hs, ?_, pops, htwo, hmem⟩
  rw [hrounds 8 (by decide +kernel), htwo]

end Routine

end StackTree
