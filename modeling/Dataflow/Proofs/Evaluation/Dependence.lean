import Dataflow.Proofs.Evaluation.History

/-! # What an output depends on

A node depends on itself, on the nodes that it reads from and on what these depend on; that is its cone.
What a node puts out, and what a request for an output is answered, is determined by the nodes of the cone
and by what is bound to the input nodes among them. Nothing else matters: not what is bound elsewhere or
fails there, not what was asked before, and not the nodes that are put behind. -/

namespace Dataflow
namespace Model
variable {κ : Type} [Node κ] {m m' : Model κ} {b b' : Nat → Option Signal} {id j k : Nat}

/-- A span of an input of the first node leads to the second. -/
def Reads (m : Model κ) (id j : Nat) : Prop := ∃ n, m.nodes[id]? = some n ∧ ∃ s ∈ Node.spans n, s.node = j

def DependsOn (m : Model κ) : (id k : Nat) → Prop := Relation.ReflTransGen m.Reads

theorem Reads.lt (hm : m.WellFormed) (h : m.Reads id j) : j < id :=
    Evaluator.sources_lt hm (Evaluator.mem_sources.mpr h)

theorem DependsOn.le (hm : m.WellFormed) (h : m.DependsOn id k) : k ≤ id := by
  induction h with
  | refl => exact Nat.le_refl _
  | tail _ hread ih => exact Nat.le_trans (Nat.le_of_lt (hread.lt hm)) ih

theorem mem_cone (hm : m.WellFormed) : k ∈ m.cone id ↔ m.DependsOn id k := by
  constructor
  · exact Evaluator.cone_induction hm .refl (fun _ _ hk hj => hk.tail (Evaluator.mem_sources.mp hj)) k
  · intro h
    refine (Evaluator.mem_pending (e := m.evaluator) hm).mpr ?_
    induction h using Relation.ReflTransGen.head_induction_on with
    | refl => exact .self rfl
    | head hread _ ih => exact .read rfl (Evaluator.mem_sources.mpr hread) ih

/-! ### Nodes put behind -/

/-- A node that is not put behind reads the same, whatever is put behind. -/
theorem Extends.reads_iff (hext : m.Extends m') (hid : id < m.size) : m'.Reads id j ↔ m.Reads id j := by
  rw [Reads, Reads, hext.getElem? hid]

theorem Extends.dependsOn_iff (hext : m.Extends m') (hm : m.WellFormed) (hid : id < m.size) :
    m'.DependsOn id k ↔ m.DependsOn id k := by
  constructor
  · intro h
    induction h using Relation.ReflTransGen.head_induction_on with
    | refl => exact .refl
    | head hread _ ih =>
      have hread := (hext.reads_iff hid).mp hread
      exact .head hread (ih (Nat.lt_trans (hread.lt hm) hid))
  · refine Relation.ReflTransGen.mono (fun i j hread => ?_) id k
    obtain ⟨n, hn, hspan⟩ := hread
    exact ⟨n, hext.node hn, hspan⟩

theorem Extends.cone_eq (hext : m.Extends m') (hm : m.WellFormed) (hm' : m'.WellFormed) (hid : id < m.size) :
    m'.cone id = m.cone id :=
  Evaluator.pairwise_pending.eq_of_mem_iff Evaluator.pairwise_pending fun k => by
    show k ∈ m'.cone id ↔ k ∈ m.cone id
    rw [mem_cone hm', mem_cone hm, hext.dependsOn_iff hm hid]

/-! ### What is bound -/

/-- The same is bound to all input nodes that a node depends on. -/
def AgreeOn (m : Model κ) (id : Nat) (b b' : Nat → Option Signal) : Prop :=
  ∀ k n, m.DependsOn id k → m.nodes[k]? = some n → Node.isInput n = true → b k = b' k

theorem AgreeOn.mono (h : m.AgreeOn id b b') (hk : m.DependsOn id k) : m.AgreeOn k b b' :=
  fun i n hi => h i n (hk.trans hi)

theorem values_congr (hext : m.Extends m') (hm : m.WellFormed) (hm' : m'.WellFormed) (hid : id < m.size)
    (hagree : m.AgreeOn id b b') : m.values b id = m'.values b' id := by
  induction id using Nat.strongRecOn with
  | ind id ih =>
    rw [values_eq hm, values_eq hm']
    refine outputsFrom_congr (hext.getElem? hid).symm (fun n => hagree id n .refl) fun n hn s hs => ?_
    have hread : m.Reads id s.node := ⟨n, hn, s, hs, rfl⟩
    have hlt := hread.lt hm
    exact ih s.node hlt (Nat.lt_trans hlt hid) (hagree.mono (.single hread))

theorem demand_congr (hext : m.Extends m') (hm : m.WellFormed) (hm' : m'.WellFormed) (hid : id < m.size)
    (hagree : m.AgreeOn id b b') : m.demand b id = m'.demand b' id := by
  have hcone : ∀ k ∈ m.cone id, m.values b k = m'.values b' k := fun k hk => by
    have hk := (mem_cone hm).mp hk
    exact values_congr hext hm hm' (Nat.lt_of_le_of_lt (hk.le hm) hid) (hagree.mono hk)
  rw [demand, demand, hext.cone_eq hm hm' hid, hcone id (Evaluator.mem_cone_self hm)]
  rw [Result.forM_congr fun k hk => congrArg discard (hcone k hk)]

/-- Further nodes put behind, of which any may be refused. -/
def grown (m : Model κ) (ns : List κ) : Model κ := ns.foldl (fun m n => (runFrom m (put n)).2) m

theorem grown_spec (hm : m.WellFormed) (ns : List κ) : m.Extends (m.grown ns) ∧ (m.grown ns).WellFormed := by
  induction ns generalizing m with
  | nil => exact ⟨List.prefix_refl _, hm⟩
  | cons n rest ih =>
    show m.Extends ((runFrom m (put n)).2.grown rest) ∧ ((runFrom m (put n)).2.grown rest).WellFormed
    rcases runFrom_put_cases m n with ⟨e, h⟩ | ⟨hcheck, h⟩ <;> rw [h]
    · exact ih hm
    · obtain ⟨hext, hm'⟩ := ih (hm.push hcheck)
      exact ⟨extends_push.trans hext, hm'⟩

end Model

namespace Evaluator
variable {κ : Type} [Node κ] {m : Model κ}

/-- Two evaluators, of a model and of the same one with nodes put behind, answer a request for an output
    alike, with an error too, if the same is bound to the input nodes that it depends on. -/
theorem answer_of_cone (hm : m.Built) (ns : List κ) (calls calls' : List Call) (o : Outlet) (ho : o.node < m.size)
    (hagree : m.AgreeOn o.node (m.evaluator.after calls).bound ((m.grown ns).evaluator.after calls').bound) :
    (runFrom (m.evaluator.after calls) (computeOutput o)).1 =
      (runFrom ((m.grown ns).evaluator.after calls') (computeOutput o)).1 := by
  obtain ⟨hext, hm'⟩ := Model.grown_spec hm.wellFormed ns
  have h := serves_after hm.wellFormed calls
  have h' := serves_after hm' calls'
  rw [answer_output h.sound, answer_output h'.sound, h.model, h'.model, Model.demandOutput, Model.demandOutput,
    Model.demand_congr hext hm.wellFormed hm' ho hagree]

/-- A model whose last node divides by an input that is zero; the node between the two is refused. -/
def addends : List Builtin :=
  let whole id := Wire.ofSpan (.whole ⟨id, 0⟩ .int 1)
  [.input .int 1, .binary .int .add (whole 1) (whole 9), .binary .int .divide (whole 1) (whole 4)]

/-- Nodes put behind, what is bound to them and a failure among them leave the answer as it is. -/
theorem quotients_answer :
    let e := quotients.evaluator.after [.bind 0 (.int [2])]
    let e' := (quotients.grown addends).evaluator.after [.bindAll (.int [2, 0]), .computeOutput ⟨5, 0⟩]
    (runFrom e' (computeOutput ⟨5, 0⟩)).1 = .error (.compute "integer division by zero") ∧
    (runFrom e (computeOutput ⟨3, 0⟩)).1 = .ok (.int [10]) ∧
    (runFrom e (computeOutput ⟨3, 0⟩)).1 = (runFrom e' (computeOutput ⟨3, 0⟩)).1 := by
  intro e e'
  have hbound : quotients.AgreeOn 3 e.bound e'.bound := by
    intro k _ hk _ _
    have hle : k ≤ 3 := hk.le quotients_built.wellFormed
    rcases k with _ | _ | _ | _ | k
    · decide
    · decide
    · decide
    · decide
    · omega
  exact ⟨by decide, by decide, answer_of_cone quotients_built addends _ _ ⟨3, 0⟩ (by decide) hbound⟩

end Evaluator
end Dataflow
