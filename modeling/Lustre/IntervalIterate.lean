import Lustre.IntervalSearch

/-!
# Iterating over the interval tree (`interval_tree.c`)

`interval_iterate` goes from the first node to the last, `interval_iterate_reverse` back.
Both are one loop that steps from node to node through the links: to the end of the next
subtree, or up to the first parent that is left from the near side. `remaining` is what is still
to come at a place; a step goes to the first node of it (`intervalStep_spec`), so the loop
calls the callback on the nodes in order (`Owns.iterate`).
-/

namespace Lustre

open BinaryTree (Side Frame fill join fill_append length_le_inorder length_inorder_join exists_join
  fromSide remaining fromSide_join fromSide_fill remaining_append remaining_cons_opp
  remaining_cons_self join_opp)

/-! ## The loops -/

section Iterate

variable {σ : Type} (d : Side) (func : σ → ℕ → Option (σ × IntervalIter))

/-- `interval_for_each` for `d` left, `interval_for_each_reverse` for `d` right; `depth` is the
fuel of a step. -/
def intervalForEach (depth : ℕ) : ℕ → IntervalTree → Option ℕ → σ → Option (σ × IntervalIter)
  | 0, _, _, _ => none
  | _ + 1, _, none, data => some (data, .cont)
  | fuel + 1, s, some node, data => do
    let (data, rc) ← func data node
    if rc = .stop then return (data, rc)
    intervalForEach depth fuel s (← intervalStep d.opp depth s node) data

/-- `interval_first` and `interval_last` of the tree. -/
def intervalRootEnd (fuel : ℕ) (s : IntervalTree) : Option (Option ℕ) :=
  match s.root with
  | none => some none
  | some root => (intervalEnd d fuel s root).map some

/-- The iteration from the side `d`: `interval_iterate` for `d` left. -/
def intervalIterateFrom (fuel : ℕ) (s : IntervalTree) (data : σ) : Option (σ × IntervalIter) := do
  intervalForEach d func fuel fuel s (← intervalRootEnd d fuel s) data

def intervalIterateReverse : ℕ → IntervalTree → σ → Option (σ × IntervalIter) :=
  intervalIterateFrom .right func

end Iterate

/-! ## One step -/

section Step

variable {base : ℕ → IntervalNode} {s : IntervalTree} {ctx : CellCtx} {t u v : CellTree} {y : Cell}
  {d : Side} {n depth : ℕ}

theorem Placed.inParent (h : Placed base s ctx t) (hn : ptr t = some n) :
    (s.node n).inParent = ctxPar ctx := by
  cases t with
  | nil => cases hn
  | node c l r =>
    cases hn
    exact congrArg IntervalNode.inParent h.rep.1

/-- The climb goes to the first node behind the subtree. -/
theorem intervalClimb_spec (h : Placed base s ctx t) (hn : ptr t = some n)
    (hdepth : ctx.length < depth) :
    (intervalClimb d.opp depth s n = some none ∧ remaining d ctx = []) ∨
    ∃ p t' u' ctx', intervalClimb d.opp depth s n = some (some p.id) ∧
      Placed base s ctx' (join p d t' u') ∧ fill ctx t = fill ctx' (join p d t' u') ∧
      remaining d ctx = p :: (fromSide d u' ++ remaining d ctx') := by
  induction ctx generalizing t n depth with
  | nil =>
    obtain _ | depth := depth
    · omega
    have hpar : (s.node n).inParent = none := h.inParent hn
    rw [intervalClimb, hpar]
    exact .inl ⟨rfl, rfl⟩
  | cons f ctx ih =>
    obtain _ | depth := depth
    · omega
    obtain ⟨p, e, w⟩ := f
    have hpar : (s.node n).inParent = some p.id := h.inParent hn
    rw [List.length_cons] at hdepth
    rw [intervalClimb, hpar]
    dsimp only
    rcases d.eq_or_eq_opp e with rfl | rfl
    · -- left from the near side: the parent comes next
      have hside : ¬(s.node p.id).child e.opp = some n := fun heq =>
        e.opp_ne ((h.child_eq_iff hn e.opp).mp heq).symm
      rw [if_neg hside]
      exact .inr ⟨p, t, w, ctx, rfl, h.up, rfl, remaining_cons_self ..⟩
    · have hside : (s.node p.id).child d.opp = some n := (h.child_eq_iff hn d.opp).mpr rfl
      rw [if_pos hside, remaining_cons_opp]
      exact ih h.up (ptr_join ..) (by omega)

/-- `interval_next` and `interval_prev` go to the first node of what remains. -/
theorem intervalStep_spec (h : Placed base s ctx (join y d u v))
    (hdepth : (fill ctx (join y d u v)).inorder.length ≤ depth) :
    (intervalStep d.opp depth s y.id = some none ∧ fromSide d v ++ remaining d ctx = []) ∨
    ∃ y' u' v' ctx', intervalStep d.opp depth s y.id = some (some y'.id) ∧
      Placed base s ctx' (join y' d u' v') ∧ fill ctx (join y d u v) = fill ctx' (join y' d u' v') ∧
      fromSide d v ++ remaining d ctx = y' :: (fromSide d v' ++ remaining d ctx') := by
  have hchild : (s.node y.id).child d.opp = ptr v := by rw [h.node, Cell.toNode_child_opp]
  have hlen := length_le_inorder ctx (join y d u v)
  rw [length_inorder_join] at hlen
  rw [intervalStep, hchild]
  by_cases hv : v = .nil
  · subst hv
    rw [BinaryTree.fromSide_nil, List.nil_append]
    exact intervalClimb_spec h (ptr_join ..) (by omega)
  · -- the near end of the subtree on the far side
    obtain ⟨c, a, b, rfl⟩ := exists_join hv d
    have hdown : Placed base s (⟨y, d.opp, u⟩ :: ctx) (join c d a b) := by
      refine Placed.down ?_
      rw [join_opp]
      exact h
    obtain ⟨path, y', v', heq, hpath, hend⟩ :=
      intervalEnd_spec depth hdown (ptr_join c d a b) (by omega)
    rw [heq] at hdown
    refine .inr ⟨y', .nil, v', path ++ ⟨y, d.opp, u⟩ :: ctx, ?_, placed_append.mpr hdown, ?_, ?_⟩
    · rw [ptr_join, Side.opp_opp]
      exact congrArg (Option.map some) hend
    · rw [fill_append, ← heq, BinaryTree.fill, Frame.plug, join_opp]
    · rw [heq, fromSide_fill hpath, fromSide_join, remaining_append, remaining_cons_opp,
        BinaryTree.fromSide_nil, List.nil_append, List.cons_append, List.cons_append,
        List.append_assoc]

end Step

/-! ## The iteration -/

section Loop

variable {base : ℕ → IntervalNode} {s : IntervalTree} {ctx : CellCtx} {t u v : CellTree} {y : Cell}
  {d : Side} {depth fuel : ℕ} {σ : Type} {func : σ → ℕ → Option (σ × IntervalIter)}

/-- The loop at a node calls the callback there and on what remains. -/
theorem intervalForEach_spec (h : Placed base s ctx (join y d u v))
    (hdepth : (fill ctx (join y d u v)).inorder.length ≤ depth)
    (hfuel : (fromSide d v ++ remaining d ctx).length + 1 < fuel) (data : σ) :
    intervalForEach d func depth fuel s (some y.id) data =
      runIter func data ((y :: (fromSide d v ++ remaining d ctx)).map Cell.id) := by
  induction fuel generalizing ctx y u v data with
  | zero => omega
  | succ fuel ih =>
    rw [intervalForEach, List.map_cons, runIter]
    refine congrArg (Option.bind (func data y.id)) (funext fun called => ?_)
    obtain ⟨data, rc⟩ := called
    dsimp only
    split
    · rfl
    · rcases intervalStep_spec h hdepth with ⟨hstep, hnil⟩ | ⟨y', u', v', ctx', hstep, h', hfill, hrest⟩
      · obtain _ | fuel := fuel
        · omega
        rw [hstep, hnil]
        rfl
      · rw [hrest, List.length_cons] at hfuel
        rw [hstep, hrest]
        exact ih h' (hfill ▸ hdepth) (by omega) data

/-- **`interval_iterate` and `interval_iterate_reverse`** call the callback on the nodes in order,
until it stops. -/
theorem Owns.iterate (h : Owns s t) (d : Side) {fuel : ℕ} (hfuel : (ids t).length < fuel)
    (func : σ → ℕ → Option (σ × IntervalIter)) (data : σ) : intervalIterateFrom d func fuel s data =
      runIter func data ((fromSide d t).map Cell.id) := by
  have hpl := h.stored.placed
  rw [ids, List.length_map] at hfuel
  rw [intervalIterateFrom, intervalRootEnd, hpl.root]
  by_cases ht : t = .nil
  · subst ht
    obtain _ | fuel := fuel
    · omega
    rw [BinaryTree.fromSide_nil]
    rfl
  · obtain ⟨c, a, b, rfl⟩ := exists_join ht d
    obtain ⟨path, y, v, heq, hpath, hend⟩ :=
      intervalEnd_spec fuel hpl (ptr_join c d a b) (Nat.le_of_lt hfuel)
    rw [heq] at hpl hfuel ⊢
    have hlist : fromSide d (fill path (join y d .nil v)) =
        y :: (fromSide d v ++ remaining d path) := by
      rw [fromSide_fill hpath, fromSide_join, BinaryTree.fromSide_nil, List.nil_append,
        List.cons_append]
    have hlen : (fromSide d (fill path (join y d .nil v))).length =
        (fill path (join y d .nil v)).inorder.length := by
      cases d <;> simp [fromSide]
    rw [hlist, List.length_cons] at hlen
    rw [← heq, BinaryTree.fill, ptr_join]
    dsimp only
    rw [hend, heq, hlist]
    exact intervalForEach_spec hpl.focus (Nat.le_of_lt hfuel) (by omega) data

end Loop

end Lustre
