import TreeBackend.Proofs.Correctness.Activations

/-!
# Scopes and the calls that carry them out

The activations of a scope are those of the latest calls of their functions.  So the code of a
function finds the cell that a name stands for where the static links lead.
-/

namespace TreeBackend

open Source Lowering

/-- The scope of certain functions while certain calls are open: for each function the
activation that its latest call carries out. -/
structure IsScopeOf (live : List LiveCall) (around : List NodeId) (scope : Scope) : Prop where
  functions : scope.map (·.function.node.id) = around
  latest : ∀ activation ∈ scope, ∃ found,
    live.find? (fun other => other.call.isOf activation.function.node.id) = some found ∧
      found.activation = activation.number ∧ found.call.function = activation.function

section Scopes

variable {program : Program} {table : FrameTable} {chunks : List IR.Chunk} {start machine : Machine}
  {live older : List LiveCall} {here : LiveCall} {around : List NodeId} {scope outer : Scope}
  {callee : Source.Function}

/-! ### The scope of a callee -/

theorem IsScopeOf.scopeIn (inScope : IsScopeOf live around scope)
    (found : callee.scopeIn? scope = some outer) : IsScopeOf live callee.around outer := by
  obtain ⟨isSuffix, functions⟩ := scopeIn?_eq_some found
  exact ⟨functions, fun activation member => inScope.latest activation (isSuffix.subset member)⟩

theorem IsScopeOf.isVisibleFrom {caller : Source.Function}
    (inScope : IsScopeOf live (caller.node.id :: caller.around) scope)
    (found : callee.scopeIn? scope = some outer) : callee.IsVisibleFrom caller := by
  obtain ⟨isSuffix, functions⟩ := scopeIn?_eq_some found
  intro definition isHead
  rw [← functions] at isHead
  obtain ⟨activation, member, rfl⟩ := List.mem_map.mp (List.mem_of_mem_head? isHead)
  rw [← inScope.functions]
  exact List.mem_map.mpr ⟨activation, isSuffix.subset member, rfl⟩

theorem IsScopeOf.cons (distinct : program.definitionIds.Nodup)
    (isLive : IsLive program table start live) (inScope : IsScopeOf live callee.around outer)
    (member : callee ∈ program.functions) {world : World} {routine : Machine.Routine} :
    IsScopeOf (newLive start live world callee routine :: live)
      (callee.node.id :: callee.around) (⟨callee, world.activations⟩ :: outer) where
  functions := by rw [List.map_cons, inScope.functions]
  latest := by
    refine List.forall_mem_cons.mpr ⟨⟨newLive start live world callee routine, ?_, rfl, rfl⟩,
      fun activation isOuter => ?_⟩
    · exact List.find?_cons_of_pos (decide_eq_true rfl)
    · obtain ⟨found, isLatest, number, function⟩ := inScope.latest activation isOuter
      refine ⟨found, ?_, number, function⟩
      have outerMember : activation.function ∈ program.functions :=
        function ▸ isLive.function_mem (List.mem_of_find?_eq_some isLatest)
      have isAround : activation.function.node.id ∈ callee.around := by
        rw [← inScope.functions]
        exact List.mem_map.mpr ⟨activation, isOuter, rfl⟩
      -- A function around the callee is less deep, so the new call is none of it.
      rw [List.find?_cons_of_neg, isLatest]
      simp only [Call.isOf, decide_eq_true_eq]
      intro same
      have deeper := Program.depth_lt distinct member outerMember isAround
      rw [Program.eq_of_id_eq distinct member outerMember same] at deeper
      omega

/-! ### What names stand for -/

/-- The word for a cell: its address is known while the innermost call runs, and computing it
does nothing else. -/
structure IsWordOf (table : FrameTable) (start : Machine) (live : List LiveCall)
    (cell : Cell) (address : IR.Expr) (place : Int) : Prop where
  plain : address.isPlain = true
  noCalls : address.calls = []
  noTemp : address.lastTemp? = none
  denotes : Denotes start (callsOf live) address place
  lies : cell.LiesAt table start live place

theorem IsScopeOf.isWordOf (furnished : Furnished program table chunks start)
    (isLive : IsLive program table start (here :: older))
    (inScope : IsScopeOf (here :: older)
      (here.call.function.node.id :: here.call.function.around) scope)
    {node : Node} {name : String} {cell : Cell} {value : IR.Expr} {state final : LoweringState}
    (found : program.cellAt? scope (.name node name) = some cell)
    (lowered : ofName ⟨program.resolution, table⟩ here.call.function.depth node name state =
      .ok value final) :
    ∃ address place, value = .mem address ∧
      IsWordOf table start (here :: older) cell address place := by
  have hosts := furnished.toHosts
  obtain ⟨labels, laid⟩ := hosts.laid
  obtain ⟨_, _, definition, ⟨rfl, rfl⟩, bound, isCell⟩ := cellAt?_eq_some.mp found
  obtain ⟨_, storage, isBound, stored, reached, -⟩ := ofName_eq_ok.mp lowered
  obtain rfl := Option.some_inj.mp (bound.symm.trans isBound)
  unfold Program.cellOf? at isCell
  split at isCell
  · next activation isOwner =>
      obtain rfl := Option.some_inj.mp isCell
      have owned : definition ∈ activation.function.ownedIds := by
        simpa using List.find?_some isOwner
      have member := List.mem_of_find?_eq_some isOwner
      obtain ⟨found, isLatest, number, function⟩ := inScope.latest activation member
      have foundMember := List.mem_of_find?_eq_some isLatest
      have isFunction : activation.function ∈ program.functions :=
        function ▸ isLive.function_mem foundMember
      have isAround : activation.function.node.id ∈
          here.call.function.node.id :: here.call.function.around := by
        rw [← inScope.functions]
        exact List.mem_map.mpr ⟨activation, member, rfl⟩
      obtain rfl := cell?_of_mem_ownedIds laid isFunction owned stored reached
      obtain ⟨inner, other, outermost, split, same, within, denotes⟩ :=
        isLive.stack.denotes_owned hosts isFunction (Program.getElem?_around hosts.scope.distinct
          (isLive.function_mem (List.mem_cons_self ..)) isFunction isAround) owned
      -- Both are the latest call of the function.
      have isFound : Call.latest? activation.function.node.id (callsOf (here :: older)) =
          some found.call := by
        rw [Call.latest?, List.find?_map]
        exact congrArg (Option.map LiveCall.call) isLatest
      have nested := isLive.stack.nested
      have unfolded : callsOf (here :: older) = inner ++ other :: outermost := split
      rw [unfolded] at nested isFound
      rw [← same] at within isFound
      have isOther := (nested.latest?_append hosts.scope.distinct within).1
      obtain rfl := Option.some_inj.mp (isFound.symm.trans isOther)
      obtain ⟨plain, noCalls⟩ :=
        enclosingFrame_isPlain (here.call.function.depth - activation.function.depth)
      exact ⟨_, _, rfl, by simpa [IR.Expr.isPlain] using plain,
        by simpa [IR.Expr.calls] using noCalls, rfl, denotes,
        .stack foundMember number.symm (function ▸ owned) rfl⟩
  · split at isCell
    · next isGlobal =>
        obtain rfl := Option.some_inj.mp isCell
        obtain ⟨owned, member, same⟩ := List.any_eq_true.mp isGlobal
        obtain rfl : owned.node.id = definition := by simpa using same
        have isThere := laid.globals owned member
        obtain rfl := Option.some_inj.mp (stored.symm.trans isThere)
        obtain rfl := Option.some_inj.mp reached
        obtain ⟨-, -, place, -, known, -⟩ := hosts.global _ _ isThere
        exact ⟨_, place, rfl, rfl, rfl, rfl, hosts.denotes_global isThere known,
          .global rfl isThere known⟩
    · cases isCell

end Scopes

end TreeBackend
