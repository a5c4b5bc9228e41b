import StackTree.Proofs.Nesting.OnTrees

/-!
# Which producer goes where

Filling a tree goes from its last pop to its first one, and every pop that is filled takes the most
recent producer. So what it comes to is known once it is known how many producers it takes: so many
of the last pops are exchanged for them, the last pop for the most recent one, and nothing else in
the tree is different (`fill_exchanges`). None is taken where the tree peeks. The tree is finished
if a producer was taken for each pop and no producer is there to be peeked at.

## Main definitions

* `Tree.popIds`: the pops of trees, in the order of evaluation.
* `Tree.producerFor`: the producer that a pop is exchanged for.
* `Tree.exchange`: the tree with pops exchanged for trees.
* `Tree.Takes`: how many producers are taken, and whether a tree is finished.

## Main results

* `Tree.fill_exchanges`: filling a tree is an exchange of its last pops.
-/

namespace StackTree

namespace Tree

variable {t : Tree} {ts us stack taken : List Tree} {id : NodeId}

/-! ## The pops of a tree -/

/-- The pops of trees, in the order of evaluation. -/
def popIds (ts : List Tree) : List NodeId :=
  ((subtreesAll ts).filter (·.kind = .pop)).map Tree.id

theorem popIds_append (ts us : List Tree) : popIds (ts ++ us) = popIds ts ++ popIds us := by
  rw [popIds, subtreesAll_append, List.filter_append, List.map_append]
  rfl

theorem popIds_cons (t : Tree) (ts : List Tree) : popIds (t :: ts) = popIds [t] ++ popIds ts :=
  popIds_append [t] ts

@[simp] theorem popIds_nil : popIds [] = [] := rfl

@[simp] theorem popIds_pop : popIds [atop id .pop []] = [id] := rfl

/-- A node that is no pop has the pops of its operands. -/
theorem popIds_node {kind : Kind} {e : Effects} {cs : List Tree} (hk : kind ≠ .pop) :
    popIds [node id kind e cs] = popIds cs := by
  rw [popIds, subtreesAll_singleton, subtrees, List.filter_append, List.map_append]
  have hself : [node id kind e cs].filter (·.kind = .pop) = [] := by
    simp [Tree.kind, hk]
  rw [hself]
  exact List.append_nil _

theorem mem_popIds_iff : id ∈ popIds [t] ↔ ∃ u ∈ t.subtrees, u.kind = .pop ∧ u.id = id := by
  rw [popIds, subtreesAll_singleton]
  simp [and_assoc]

theorem nodup_popIds (hnodup : (forestNodes ts).Nodup) : (popIds ts).Nodup := by
  rw [← map_id_subtreesAll] at hnodup
  exact hnodup.sublist (List.filter_sublist.map Tree.id)

/-- A tree without pops is one that is said to have none. -/
theorem Sound.popIds_eq_nil_iff (h : t.Sound) : popIds [t] = [] ↔ t.effects.pops = false := by
  rw [← Bool.not_eq_true, h.pops_iff_exists, popIds, subtreesAll_singleton, List.map_eq_nil_iff,
    List.filter_eq_nil_iff]
  simp

/-! ## Pairs -/

section Pairs

variable {α : Type} {ps qs : List NodeId} {taken : List α} {p : NodeId} {q : α}

/-- Names without a partner do not matter. -/
theorem zip_append_of_length_le (h : taken.length ≤ ps.length) :
    (ps ++ qs).zip taken = ps.zip taken := by
  induction ps generalizing taken with
  | nil =>
    obtain rfl := List.length_eq_zero_iff.mp (Nat.le_zero.mp h)
    rw [List.zip_nil_right, List.zip_nil_right]
  | cons p ps ih =>
    cases taken with
    | nil => rfl
    | cons q taken =>
      rw [List.cons_append, List.zip_cons_cons, List.zip_cons_cons,
        ih (Nat.le_of_succ_le_succ h)]

theorem mem_of_mem_zip (h : p ∈ (ps.zip taken).map Prod.fst) : p ∈ ps := by
  obtain ⟨⟨p, q⟩, hmem, rfl⟩ := List.mem_map.mp h
  exact (List.of_mem_zip hmem).1

theorem lookup_eq_none {pairs : List (NodeId × α)} (h : p ∉ pairs.map Prod.fst) :
    pairs.lookup p = none := by
  rw [List.lookup_eq_none_iff]
  rintro ⟨first, second⟩ hmem
  rw [bne_iff_ne]
  rintro rfl
  exact h (List.mem_map_of_mem hmem)

/-- Each name is found with its partner. -/
theorem lookup_zip_of_mem (hd : ps.Nodup) (h : (p, q) ∈ ps.zip taken) :
    (ps.zip taken).lookup p = some q := by
  induction ps generalizing taken with
  | nil => cases h
  | cons first ps ih =>
    cases taken with
    | nil => cases h
    | cons second taken =>
      rw [List.nodup_cons] at hd
      rw [List.zip_cons_cons, List.lookup_cons]
      rcases List.mem_cons.mp h with heq | hmem
      · obtain ⟨rfl, rfl⟩ := Prod.mk.inj heq
        rw [beq_self_eq_true]
      · have hne : p ≠ first := by
          rintro rfl
          exact hd.1 (List.of_mem_zip hmem).1
        rw [beq_false_of_ne hne]
        exact ih hd.2 hmem

theorem lookup_zip_map {β : Type} (f : α → β) :
    (ps.zip (taken.map f)).lookup p = ((ps.zip taken).lookup p).map f := by
  induction ps generalizing taken with
  | nil => rfl
  | cons first ps ih =>
    cases taken with
    | nil => rfl
    | cons second taken =>
      rw [List.map_cons, List.zip_cons_cons, List.zip_cons_cons, List.lookup_cons, List.lookup_cons,
        ih]
      cases p == first <;> rfl

end Pairs

/-! ## Exchanging pops -/

/-- The producer that a pop is exchanged for, where the taken ones are listed with the most recent
first: the last pop gets the first of them. -/
def producerFor (ts taken : List Tree) (id : NodeId) : Option Tree :=
  ((popIds ts).reverse.zip taken).lookup id

theorem producerFor_of_notMem (h : id ∉ popIds ts) : producerFor ts taken id = none :=
  lookup_eq_none fun hmem => h (List.mem_reverse.mp (mem_of_mem_zip hmem))

/-- The later operands get the most recent producers, and the first one gets some only if there is
one for each pop of the later ones. -/
theorem producerFor_cons {later first : List Tree} (hle : later.length ≤ (popIds ts).length)
    (hfull : first ≠ [] → later.length = (popIds ts).length) :
    producerFor (t :: ts) (later ++ first) id =
      (producerFor ts later id).or (producerFor [t] first id) := by
  have hzip : (popIds (t :: ts)).reverse.zip (later ++ first) =
      (popIds ts).reverse.zip later ++ (popIds [t]).reverse.zip first := by
    rw [popIds_cons, List.reverse_append]
    by_cases hfirst : first = []
    · rw [hfirst, List.zip_nil_right, List.append_nil, List.append_nil,
        zip_append_of_length_le (by rwa [List.length_reverse])]
    · exact List.zip_append (by rw [List.length_reverse, hfull hfirst])
  rw [producerFor, hzip, List.lookup_append, producerFor, producerFor]

mutual

/-- The tree with pops exchanged for the trees that they are given. -/
def exchange (put : NodeId → Option Tree) : Tree → Tree
  | node id kind e cs =>
    if kind = .pop then (put id).getD (node id kind e cs) else atop id kind (exchangeAll put cs)

/-- The trees with pops exchanged for the trees that they are given. -/
def exchangeAll (put : NodeId → Option Tree) : List Tree → List Tree
  | [] => []
  | t :: ts => exchange put t :: exchangeAll put ts

end

section Exchange

variable {put : NodeId → Option Tree} {kind : Kind} {cs : List Tree}

theorem exchange_pop (put : NodeId → Option Tree) (id : NodeId) :
    exchange put (atop id .pop []) = (put id).getD (atop id .pop []) := rfl

theorem exchange_atop (hk : kind ≠ .pop) :
    exchange put (atop id kind cs) = atop id kind (exchangeAll put cs) := if_neg hk

/-- Only what the pops of a tree are given matters. -/
theorem exchange_congr_cases (put other : NodeId → Option Tree) : FillInduction
    (fun t => (∀ id ∈ popIds [t], put id = other id) → exchange put t = exchange other t)
    (fun ts => (∀ id ∈ popIds ts, put id = other id) →
      exchangeAll put ts = exchangeAll other ts) where
  pop := by
    intro id h
    rw [exchange_pop, exchange_pop, h id (List.mem_singleton_self id)]
  peek := fun _ _ => rfl
  leaf := fun _ _ _ hpop _ _ => by rw [exchange_atop hpop, exchange_atop hpop]; rfl
  composite := by
    intro id kind cs hk _ ih h
    have hpop := Kind.ne_pop_of_isComposite hk
    rw [exchange_atop hpop, exchange_atop hpop, ih]
    rwa [atop, popIds_node hpop] at h
  nil := fun _ => rfl
  cons := by
    intro t ts _ _ iht ihts h
    rw [popIds_cons, List.forall_mem_append] at h
    rw [exchangeAll, exchangeAll, iht h.1, ihts h.2]

theorem exchange_none_cases : FillInduction
    (fun t => exchange (fun _ => none) t = t) (fun ts => exchangeAll (fun _ => none) ts = ts) where
  pop := fun _ => rfl
  peek := fun _ => rfl
  leaf := fun _ _ _ hpop _ => exchange_atop hpop
  composite := by
    intro id kind cs hk _ ih
    have hpop := Kind.ne_pop_of_isComposite hk
    rw [exchange_atop hpop, ih]
  nil := rfl
  cons := by
    intro t ts _ _ iht ihts
    rw [exchangeAll, iht, ihts]

/-- What gives a tree's pops nothing leaves the tree as it is. -/
theorem exchange_eq_self (ht : t.Sound) (h : ∀ id ∈ popIds [t], put id = none) :
    exchange put t = t := by
  rw [(exchange_congr_cases put fun _ => none).tree t ht h, exchange_none_cases.tree t ht]

/-- The producers that operands take are those that the later ones take and then those that the
first one takes. -/
theorem exchangeAll_cons {later first : List Tree} (ht : t.Sound) (hts : SoundAll ts)
    (hnodup : (popIds (t :: ts)).Nodup) (hle : later.length ≤ (popIds ts).length)
    (hfull : first ≠ [] → later.length = (popIds ts).length) :
    exchangeAll (producerFor (t :: ts) (later ++ first)) (t :: ts) =
      exchange (producerFor [t] first) t :: exchangeAll (producerFor ts later) ts := by
  rw [popIds_cons, List.nodup_append] at hnodup
  obtain ⟨-, -, hdisjoint⟩ := hnodup
  rw [exchangeAll]
  congr 1
  · refine (exchange_congr_cases _ _).tree t ht fun id hid => ?_
    have hlater : producerFor ts later id = none :=
      producerFor_of_notMem fun hmem => hdisjoint id hid id hmem rfl
    rw [producerFor_cons hle hfull, hlater, Option.none_or]
  · refine (exchange_congr_cases _ _).trees ts hts fun id hid => ?_
    have hfirst : producerFor [t] first id = none :=
      producerFor_of_notMem fun hmem => hdisjoint id hmem id hid rfl
    rw [producerFor_cons hle hfull, hfirst, Option.or_none]

theorem exchange_mem_leaf {u : Tree} (hu : u ∈ (atop id kind []).subtrees) :
    exchange put u ∈ (exchange put (atop id kind [])).subtrees := by
  obtain rfl := List.mem_singleton.mp hu
  exact mem_subtrees _

/-- Each part of a tree is exchanged for a part of the new one. -/
theorem exchange_mem_cases (put : NodeId → Option Tree) : FillInduction
    (fun t => ∀ u ∈ t.subtrees, exchange put u ∈ (exchange put t).subtrees)
    (fun ts => ∀ u ∈ subtreesAll ts, exchange put u ∈ subtreesAll (exchangeAll put ts)) where
  pop := fun _ _ hu => exchange_mem_leaf hu
  peek := fun _ _ hu => exchange_mem_leaf hu
  leaf := fun _ _ _ _ _ _ hu => exchange_mem_leaf hu
  composite := by
    intro id kind cs hk _ ih u hu
    have hpop := Kind.ne_pop_of_isComposite hk
    rcases List.mem_append.mp hu with hu | hu
    · rw [exchange_atop hpop]
      exact List.mem_append_left _ (ih u hu)
    · obtain rfl := List.mem_singleton.mp hu
      exact mem_subtrees _
  nil := nofun
  cons := by
    intro t ts _ _ iht ihts u hu
    rw [exchangeAll, subtreesAll, List.mem_append]
    exact (List.mem_append.mp hu).imp (iht u) (ihts u)

theorem exchange_mem_subtrees (ht : t.Sound) {u : Tree} (hu : u ∈ t.subtrees) :
    exchange put u ∈ (exchange put t).subtrees :=
  (exchange_mem_cases put).tree t ht u hu

theorem exchangeAll_eq_map : exchangeAll put ts = ts.map (exchange put) := by
  induction ts with
  | nil => rfl
  | cons t ts ih => rw [exchangeAll, ih, List.map_cons]

theorem exchange_of_pop (h : t.kind = .pop) : exchange put t = (put t.id).getD t := by
  obtain ⟨id, kind, e, cs⟩ := t
  exact if_pos h

theorem exchange_of_ne_pop (h : t.kind ≠ .pop) :
    exchange put t = atop t.id t.kind (t.children.map (exchange put)) := by
  obtain ⟨id, kind, e, cs⟩ := t
  rw [← exchangeAll_eq_map]
  exact if_neg h

/-- A node that is given nothing stays, over the exchanged operands. -/
theorem exchange_eq_atop (ht : t.Sound) (h : put t.id = none) :
    exchange put t = atop t.id t.kind (t.children.map (exchange put)) := by
  by_cases hk : t.kind = .pop
  · rw [exchange_of_pop hk, h, Option.getD_none, ht.children_eq_nil (.inl hk), List.map_nil,
      ← ht.children_eq_nil (.inl hk), ← ht.eq_atop]
  · exact exchange_of_ne_pop hk

/-- What stands in the place of a node, where only pops are given something. -/
theorem id_exchange (hput : t.kind ≠ .pop → put t.id = none) :
    (exchange put t).id = ((put t.id).map Tree.id).getD t.id := by
  by_cases h : t.kind = .pop
  · rw [exchange_of_pop h]
    cases put t.id <;> rfl
  · rw [exchange_of_ne_pop h, hput h]
    rfl

end Exchange

/-! ## Filling exchanges the last pops -/

/-- Filling what has these pops takes so many producers from the stack, and says whether it is
finished: if a producer was taken for each pop, and nothing peeks at one that is left. -/
structure Takes (ids : List NodeId) (peeks : Bool) (stack left : List Tree) (finished : Bool)
    (count : Nat) : Prop where
  le_pops : count ≤ ids.length
  le_stack : count ≤ stack.length
  left_eq : left = stack.drop count
  peeks_zero : peeks = true → count = 0
  finished_iff : finished = true ↔ count = ids.length ∧ (peeks = false ∨ stack = [])

namespace Takes

variable {ids more : List NodeId} {peeks also finished done : Bool} {stack mid left : List Tree}
  {count first : Nat}

/-- Nothing is taken. -/
theorem zero (h : finished = true ↔ ids = [] ∧ (peeks = false ∨ stack = [])) :
    Takes ids peeks stack stack finished 0 where
  le_pops := Nat.zero_le _
  le_stack := Nat.zero_le _
  left_eq := rfl
  peeks_zero := fun _ => rfl
  finished_iff := by rw [h, eq_comm (a := 0), List.length_eq_zero_iff]

/-- Where the later operands stall, or the first one has pops that stay, the list stalls. -/
theorem stall (h : Takes more also stack left done count) (hpeeks : peeks = true → count = 0)
    (hstall : done = false ∨ ids ≠ []) :
    Takes (ids ++ more) (peeks || also) stack left false count where
  le_pops := by
    have := h.le_pops
    rw [List.length_append]
    omega
  le_stack := h.le_stack
  left_eq := h.left_eq
  peeks_zero := by
    rw [Bool.or_eq_true]
    exact fun hor => hor.elim hpeeks h.peeks_zero
  finished_iff := by
    refine ⟨fun hfalse => absurd hfalse Bool.false_ne_true, ?_⟩
    rintro ⟨hcount, hrest⟩
    have hle := h.le_pops
    rw [List.length_append] at hcount
    rw [Bool.or_eq_false_iff] at hrest
    have hnil : ids = [] := List.length_eq_zero_iff.mp (by omega)
    have hdone : done = true := h.finished_iff.mpr ⟨by omega, hrest.imp_left And.right⟩
    rcases hstall with hstall | hstall
    · rw [hstall] at hdone
      cases hdone
    · exact absurd hnil hstall

/-- The first operand takes what it takes from the stack that the later ones have left. -/
theorem next (h : Takes more also stack mid true count)
    (h' : Takes ids peeks mid left finished first) (hpeeks : peeks = true → count = 0) :
    Takes (ids ++ more) (peeks || also) stack left finished (count + first) := by
  obtain ⟨hcount, hquiet⟩ := h.finished_iff.mp rfl
  have hmid := h.left_eq
  have hle := h.le_stack
  have hpops := h'.le_pops
  have hfirst := h'.le_stack
  have hlength : mid.length + count = stack.length := by
    rw [hmid, List.length_drop]
    omega
  have hsame : peeks = true → mid = stack := by
    intro hp
    rw [hmid, hpeeks hp, List.drop_zero]
  have hempty : stack = [] → mid = [] := by
    rintro rfl
    rw [hmid, List.drop_nil]
  constructor
  case le_pops =>
    rw [List.length_append]
    omega
  case le_stack => omega
  case left_eq => rw [h'.left_eq, hmid, List.drop_drop]
  case peeks_zero =>
    rw [Bool.or_eq_true]
    rintro (hp | hp)
    · rw [hpeeks hp, h'.peeks_zero hp]
    · -- The later operands are finished, so there is no producer at all.
      have hnone : stack = [] := hquiet.resolve_left (by rw [hp]; exact Bool.noConfusion)
      rw [hnone, List.length_nil] at hlength hle
      omega
  case finished_iff =>
    rw [h'.finished_iff, List.length_append, Bool.or_eq_false_iff]
    constructor
    · rintro ⟨hall, hrest⟩
      refine ⟨by omega, ?_⟩
      rcases hquiet with hquiet | hquiet
      · cases hp : peeks with
        | false => exact .inl ⟨rfl, hquiet⟩
        | true =>
          rw [hp, hsame hp] at hrest
          exact .inr (hrest.resolve_left Bool.noConfusion)
      · exact .inr hquiet
    · rintro ⟨hall, hrest⟩
      exact ⟨by omega, hrest.imp And.left hempty⟩

end Takes

/-- The induction behind `fill_exchanges`. Where the operands before a list peek, none of its pops
is filled. -/
theorem fill_exchanges_cases : FillInduction
    (fun t => ∀ before stack, (popIds [t]).Nodup → ∃ count,
      Takes (popIds [t]) t.effects.peeks stack (fill before stack t).stack
        (fill before stack t).finished count ∧
      (fill before stack t).result = exchange (producerFor [t] (stack.take count)) t)
    (fun ts => ∀ earlier before stack, (popIds ts).Nodup → ∃ count,
      Takes (popIds ts) (effectsAll ts).peeks stack (fillAll earlier before stack ts).stack
        (fillAll earlier before stack ts).finished count ∧
      (fillAll earlier before stack ts).result =
        exchangeAll (producerFor ts (stack.take count)) ts ∧
      (earlier.peeks = true → count = 0)) where
  pop := by
    intro id before stack _
    rcases fill_atop_pop_cases before stack id with heq | ⟨top, rest, rfl, heq⟩
    · rw [heq]
      exact ⟨0, .zero (by simp), rfl⟩
    · rw [heq]
      refine ⟨1, ⟨Nat.le_refl _, Nat.le_add_left .., rfl, nofun, ?_⟩, ?_⟩
      · exact ⟨fun _ => ⟨rfl, .inl rfl⟩, fun _ => rfl⟩
      · rw [exchange_pop]
        simp [producerFor]
  peek := by
    intro id before stack _
    rw [fill_atop_peek]
    have hpeeks : (atop id .peek []).effects.peeks = true := rfl
    have hpops : popIds [atop id .peek []] = [] := rfl
    refine ⟨0, .zero ?_, rfl⟩
    rw [List.isEmpty_iff, hpeeks, hpops]
    simp
  leaf := by
    intro id kind hk hpop hpeek before stack _
    have hquiet := Effects.hasStackAccess_eq_false_iff.mp (Kind.hasStackAccess_intrinsic hpop hpeek)
    have hpeeks : (atop id kind []).effects.peeks = false := by
      rw [effects_atop, effectsAll, Effects.union_empty, hquiet.1]
    have hpops : popIds [atop id kind []] = [] := popIds_node hpop
    rw [fill_atop_leaf hk hpop hpeek, hpeeks, hpops]
    exact ⟨0, .zero (by simp), by rw [exchange_atop hpop, exchangeAll]⟩
  composite := by
    intro id kind cs hk _ ih before stack hnodup
    have hquiet := Effects.hasStackAccess_eq_false_iff.mp (Kind.hasStackAccess_of_isComposite hk)
    have hpop := Kind.ne_pop_of_isComposite hk
    have hpops : popIds [atop id kind cs] = popIds cs := popIds_node hpop
    have hput : producerFor [atop id kind cs] = producerFor cs := by
      funext taken m
      rw [producerFor, producerFor, hpops]
    rw [hpops] at hnodup
    obtain ⟨count, htakes, hresult, -⟩ := ih ∅ before stack hnodup
    rw [fill_atop hk, hpops, hput, effects_atop, Effects.union_peeks, hquiet.1, Bool.false_or]
    exact ⟨count, htakes, by rw [exchange_atop hpop, hresult]⟩
  nil := by
    intro earlier before stack _
    rw [fillAll_nil]
    exact ⟨0, .zero (by simp [effectsAll]), rfl, fun _ => rfl⟩
  cons := by
    intro t ts ht hts iht ihts earlier before stack hnodup
    have hparts := hnodup
    rw [popIds_cons, List.nodup_append] at hparts
    obtain ⟨count, htakes, hresult, hwait⟩ := ihts (earlier ∪ t.effects) before stack hparts.2.1
    rw [Effects.union_peeks, Bool.or_eq_true] at hwait
    have hpeeks : t.effects.peeks = true → count = 0 := fun h => hwait (.inr h)
    have hearlier : earlier.peeks = true → count = 0 := fun h => hwait (.inl h)
    rw [effectsAll, Effects.union_peeks, fillAll_cons, popIds_cons]
    generalize fillAll (earlier ∪ t.effects) before stack ts = later at *
    have hlength : (stack.take count).length = count :=
      List.length_take_of_le htakes.le_stack
    have hcount : (stack.take count).length ≤ (popIds ts).length := by
      rw [hlength]
      exact htakes.le_pops
    have hstays : exchangeAll (producerFor (t :: ts) (stack.take count)) (t :: ts) =
        t :: later.result := by
      rw [← List.append_nil (stack.take count),
        exchangeAll_cons ht hts hnodup hcount (absurd rfl), hresult, exchange_eq_self ht]
      intro m _
      rw [producerFor, List.zip_nil_right, List.lookup_nil]
    rcases fillFirst_cases earlier before t later with
      ⟨hlater, heq⟩ | ⟨hlater, hquiet, heq⟩ | ⟨hlater, -, hblocked, heq⟩ | ⟨hlater, -, hopen, heq⟩
    · rw [heq]
      exact ⟨count, htakes.stall hpeeks (.inl hlater), hstays.symm, hearlier⟩
    · obtain ⟨hnopeek, hnopop⟩ := Effects.hasStackAccess_eq_false_iff.mp hquiet
      rw [heq, ht.popIds_eq_nil_iff.mpr hnopop, hnopeek]
      rw [hlater] at htakes
      exact ⟨count, htakes, hstays.symm, hearlier⟩
    · have hpops : popIds [t] ≠ [] := by
        rw [ne_eq, ht.popIds_eq_nil_iff, pops_of_blocked hblocked]
        exact Bool.noConfusion
      rw [heq]
      exact ⟨count, htakes.stall hpeeks (.inr hpops), hstays.symm, hearlier⟩
    · rw [hlater] at htakes
      obtain ⟨hall, -⟩ := htakes.finished_iff.mp rfl
      obtain ⟨first, hfirst, htree⟩ :=
        iht (before ∪ earlier.withoutStackAccess) later.stack hparts.1
      have htake : stack.take (count + first) = stack.take count ++ later.stack.take first := by
        rw [List.take_add, htakes.left_eq]
      rw [heq]
      refine ⟨count + first, htakes.next hfirst hpeeks, ?_, fun hpeek => ?_⟩
      · rw [htake, exchangeAll_cons ht hts hnodup hcount fun _ => hlength.trans hall, ← htree,
          ← hresult]
      have hnopop : t.effects.pops = false := by
        rw [blocked, hpeek, Bool.true_or, Bool.and_true] at hopen
        exact hopen
      have hnone := hfirst.le_pops
      rw [ht.popIds_eq_nil_iff.mpr hnopop] at hnone
      rw [hearlier hpeek, Nat.le_zero.mp hnone]

/-- Filling a tree exchanges its last pops for the most recent producers, the last pop for the most
recent one. -/
theorem fill_exchanges (ht : t.Sound) (hnodup : t.nodes.Nodup) (before : Effects)
    (stack : List Tree) : ∃ count,
      Takes (popIds [t]) t.effects.peeks stack (fill before stack t).stack
        (fill before stack t).finished count ∧
      (fill before stack t).result = exchange (producerFor [t] (stack.take count)) t := by
  refine fill_exchanges_cases.tree t ht before stack (nodup_popIds ?_)
  rwa [forestNodes_singleton]

end Tree

end StackTree
