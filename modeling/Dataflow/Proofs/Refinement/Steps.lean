import Dataflow.Proofs.Builtin.Progress
import Dataflow.Proofs.Refinement.Realise

/-! # Copied and refined nodes

A node with its wires led to a model that realises the nodes before it puts out there what it puts out in
its own model. So does a linear predictor that is refined: the sum puts out the prediction and the product
element by element the weighted elements, the same operations on the same operands in the same order. -/

namespace Dataflow

open Evaluator (Yields)

namespace Model
variable {m m' : Model Builtin} {n : Builtin} {w : Wire} {a : Nat → Option Signal} {args xs : List Signal}

/-- The model has all elements on the wire, and no end of a span wraps around. -/
structure Feeds (m : Model Builtin) (w : Wire) : Prop where
  exact : ∀ s ∈ w.spans, s.Exact
  has : ∀ s ∈ w.spans, m.Has s

theorem Feeds.mono (h : m.Feeds w) (hext : m.Extends m') : m'.Feeds w := ⟨h.exact, fun s hs => (h.has s hs).mono hext⟩

/-- A node that passes its checks and may stand behind the model, and in which no end of a span wraps around. -/
structure Admits (m : Model Builtin) (n : Builtin) : Prop where
  made : n.Made
  exact : Node.Exact n
  check : m.check m.size n = .ok ()

theorem admits_of_feeds (hmade : n.Made) (hsizes : ∀ out ∈ Node.outputs n, out.size < Size.limit)
    (h : ∀ i ∈ n.inputs, m.Feeds i.wire) : m.Admits n where
  made := hmade
  exact := by
    refine ⟨fun s hs => ?_, hsizes⟩
    obtain ⟨i, hi, hs⟩ := List.mem_flatMap.mp hs
    exact (h i hi).exact s hs
  check := check_eq_ok.mpr fun s hs => by
    obtain ⟨i, hi, hs⟩ := List.mem_flatMap.mp hs
    have hoffers : m.Offers s := (offers_iff_has ((h i hi).exact s hs)).mpr ((h i hi).has s hs)
    exact ⟨hoffers.lt, hoffers⟩

theorem Admits.feeds (h : m.Admits n) {i : Input} (hi : i ∈ n.inputs) : m.Feeds i.wire where
  exact s hs := h.exact.spans s (span_mem_spans hi hs)
  has s hs := by
    have hmem : s ∈ Node.spans n := span_mem_spans hi hs
    exact (offers_iff_has (h.exact.spans s hmem)).mp (check_eq_ok.mp h.check s hmem).2

theorem Admits.proper (h : m.Admits n) (hm : m.Proper) : (m.push n).Proper := hm.push h.made h.exact h.check

theorem Admits.under (h : m.Admits n) (args : List Signal) (hm : m.Proper) (hn : Node.isInput n = false)
    (hfits : List.Forall₂ Output.Fits n.outputs xs) (hargs : Arguments (m.under a) n args)
    (hxs : n.compute args = .ok xs) : (m.push n).under a m.size = .ok xs :=
  (under_push_size (h.proper hm).wellFormed).mpr ⟨hfits, Or.inr ⟨hn, args, hargs, hxs⟩⟩

end Model

namespace Realises
variable {m m' : Model Builtin} {f : OutputMap} {n : Builtin} {w : Wire} {a : Nat → Option Signal} {xs : List Signal}

/-! ### Copies -/

theorem reaches_wire (h : Realises m m' f) (hw : m.Feeds w) : ∀ s ∈ w.spans, f.Reaches s :=
  fun s hs => h.reaches (hw.has s hs)

theorem feeds_image (h : Realises m m' f) (hw : m.Feeds w) : m'.Feeds (f.image w) where
  exact := h.exact.image (h.reaches_wire hw)
  has s hs := by
    obtain ⟨u, -, hs⟩ := (OutputMap.mem_image (h.reaches_wire hw)).mp hs
    exact h.has_place hs

theorem outputs_image (h : Realises m m' f) (hn : m.Admits n) : Node.outputs (n.rewire f.image) = Node.outputs n :=
  Builtin.outputs_rewire fun _ hi => OutputMap.size_image (h.reaches_wire (hn.feeds hi))

theorem admits_image (h : Realises m m' f) (hn : m.Admits n) : m'.Admits (n.rewire f.image) := by
  refine Model.admits_of_feeds (hn.made.rewire (fun i hi => ?_) fun i hi => ?_) ?_ fun i hi => ?_
  · exact OutputMap.size_image (h.reaches_wire (hn.feeds hi))
  · exact OutputMap.carries_image (h.reaches_wire (hn.feeds hi)) (hn.made.carries hi)
  · rw [h.outputs_image hn]
    exact hn.exact.outputs
  · rw [Builtin.inputs_rewire] at hi
    obtain ⟨i, hi', rfl⟩ := List.mem_map.mp hi
    exact h.feeds_image (hn.feeds hi')

/-- What the node puts out behind its own model it puts out behind the other one. -/
theorem under_image (h : Realises m m' f) (hm : m.Proper) (hm' : m'.Proper) (hn : m.Admits n)
    (hxs : (m.trim.push n.trim).under a m.size = .ok xs) : (m'.push (n.rewire f.image)).under a m'.size = .ok xs := by
  have hwf : (m.trim.push n.trim).WellFormed := Model.trim_push ▸ (hn.proper hm).wellFormed.trim
  rw [← Model.size_trim, Model.under_push_size hwf, Builtin.outputs_trim, Builtin.isInput_trim, Model.rank_trim,
    Model.size_trim] at hxs
  rw [Model.under_push_size ((h.admits_image hn).proper hm').wellFormed, h.outputs_image hn, Builtin.isInput_rewire,
    h.rank_size]
  obtain ⟨hfits, hxs⟩ := hxs
  refine ⟨hfits, hxs.imp_right fun ⟨hinput, args, hargs, hcompute⟩ => ⟨hinput, args, ?_, ?_⟩⟩
  · have hargs' := (List.forall₂_and_left _ _).mpr ⟨fun _ hi => hi, Builtin.arguments_rewire.mp hargs⟩
    exact Builtin.arguments_rewire.mpr (hargs'.imp fun i x ⟨hi, hx⟩ => h.gather_image (hn.feeds hi).has hx)
  · rw [Builtin.trim, Builtin.compute_rewire] at hcompute
    rw [Builtin.compute_rewire]
    exact hcompute

theorem copy (h : Realises m m' f) (hm : m.Proper) (hm' : m'.Proper) (hn : m.Admits n) :
    Realises (m.push n) (m'.push (n.rewire f.image)) (f ++ .ofNode n m.size (⟨m'.size, ·⟩)) := by
  refine h.extend Model.extends_push hn.exact.outputs ?_ (fun k out hout => ?_) fun a xs hxs k x hx => ?_
  · rw [Model.push, List.filter_append]
    congr 1
    cases n <;> rfl
  · refine ⟨out, Model.declares_push_size ?_, rfl, rfl⟩
    rw [h.outputs_image hn]
    exact hout
  · exact ⟨xs, h.under_image hm hm' hn hxs, hx⟩

end Realises

/-! ### Refined predictors -/

def column (id size : Nat) : Wire := .ofSpan (.whole ⟨id, 0⟩ .real size)

theorem carries_column {id size : Nat} : (column id size).Carries .real := fun s hs => by
  rw [List.mem_singleton.mp hs]
  rfl

theorem size_column {id size : Nat} (h : size < Size.limit) : (column id size).size = size := Wire.size_whole h

theorem gather_column {given : Nat → Result (List Signal)} {id size : Nat} {xs : List Float}
    (h : given id = .ok [.real xs]) (hsize : xs.length = size) :
    Evaluator.gather given .real (column id size) = .ok (.real xs) := by
  subst hsize
  exact Evaluator.gather_eq_ok.mpr ⟨rfl, Yields.whole (o := ⟨id, 0⟩) h rfl⟩

namespace LinearPredictor
variable (p : LinearPredictor) (base : Nat) (x : Wire)

/-- The parts that a predictor is refined into, behind `base` nodes and with its input on `x`. -/
def weightsPart : Builtin := .constant (.real p.weights)

def productPart : Builtin := .dot .real (column base p.dimension) x

def weightedPart : Builtin := .binary .real .multiply (column base p.dimension) x

def biasPart : Builtin := .constant (.real [p.bias])

def sumPart : Builtin := .binary .real .add (column (base + 1) 1) (column (base + 3) 1)

def weigh (m : Model Builtin) : Model Builtin :=
  ((m.push p.weightsPart).push (p.productPart m.size x)).push (p.weightedPart m.size x)

def lower (m : Model Builtin) : Model Builtin := ((p.weigh x m).push p.biasPart).push (sumPart m.size)

end LinearPredictor

namespace Model
variable {m : Model Builtin} {p : LinearPredictor} {x : Wire}

theorem admits_constant {value : Signal} (h : value.size < Size.limit) : m.Admits (.constant value) :=
  admits_of_feeds trivial (fun _ hout => List.mem_singleton.mp hout ▸ h) nofun

theorem admits_bias : m.Admits p.biasPart := admits_constant (by show 1 < Size.limit; decide)

theorem feeds_column {id size : Nat} (hsize : size < Size.limit) (h : m.Declares ⟨id, 0⟩ ⟨"output", .real, size⟩) :
    m.Feeds (column id size) where
  exact := (Wire.exact_whole hsize).spans
  has s hs := by
    rw [List.mem_singleton.mp hs]
    exact has_whole h

theorem admits_pair {n : Builtin} {i j : Input} (hmade : n.Made) (hn : n.inputs = [i, j])
    (hsizes : ∀ out ∈ Node.outputs n, out.size < Size.limit) (hi : m.Feeds i.wire) (hj : m.Feeds j.wire) :
    m.Admits n := by
  refine admits_of_feeds hmade hsizes fun k hk => ?_
  rw [hn] at hk
  rcases List.mem_pair.mp hk with rfl | rfl
  · exact hi
  · exact hj

theorem size_weigh : (p.weigh x m).size = m.size + 3 := by simp [LinearPredictor.weigh]

theorem declares_product : (p.weigh x m).Declares ⟨m.size + 1, 0⟩ ⟨"output", .real, 1⟩ := by
  have h : ((m.push p.weightsPart).push (p.productPart m.size x)).Declares ⟨(m.push p.weightsPart).size, 0⟩
      ⟨"output", .real, 1⟩ := declares_push_size rfl
  rw [size_push] at h
  exact h.mono extends_push

theorem one_lt_limit : 1 < Size.limit := by decide

theorem admits_sum : ((p.weigh x m).push p.biasPart).Admits (LinearPredictor.sumPart m.size) := by
  have hbias : ((p.weigh x m).push p.biasPart).Declares ⟨(p.weigh x m).size, 0⟩ ⟨"output", .real, 1⟩ :=
    declares_push_size rfl
  rw [size_weigh] at hbias
  refine admits_pair ⟨rfl, ?_, carries_column, carries_column⟩ rfl (fun out hout => ?_) ?_ ?_
  · rw [size_column one_lt_limit, size_column one_lt_limit]
  · rw [List.mem_singleton.mp hout]
    exact Wire.size_lt _
  · exact feeds_column one_lt_limit (declares_product.mono extends_push)
  · exact feeds_column one_lt_limit hbias

section
variable (hx : m.Feeds x) (hcarries : x.Carries .real) (hsize : x.size = p.dimension)
include hsize

theorem dimension_lt : p.dimension < Size.limit := hsize ▸ x.size_lt

theorem admits_weights : m.Admits p.weightsPart := admits_constant (dimension_lt hsize)

include hx hcarries

theorem admits_product : (m.push p.weightsPart).Admits (p.productPart m.size x) := by
  have hdim := dimension_lt hsize
  refine admits_pair ⟨rfl, by rw [size_column hdim, hsize], carries_column, hcarries⟩ rfl (fun out hout => ?_)
    (feeds_column hdim (declares_push_size rfl)) (hx.mono extends_push)
  rw [List.mem_singleton.mp hout]
  exact one_lt_limit

theorem admits_weighted :
    ((m.push p.weightsPart).push (p.productPart m.size x)).Admits (p.weightedPart m.size x) := by
  have hdim := dimension_lt hsize
  refine admits_pair ⟨rfl, by rw [size_column hdim, hsize], carries_column, hcarries⟩ rfl (fun out hout => ?_)
    (feeds_column hdim ((declares_push_size rfl).mono extends_push)) ((hx.mono extends_push).mono extends_push)
  rw [List.mem_singleton.mp hout]
  exact Wire.size_lt _

theorem proper_lower (hm : m.Proper) : (p.lower x m).Proper := by
  have h₁ := (admits_weights hsize).proper hm
  have h₂ := (admits_product hx hcarries hsize).proper h₁
  have h₃ := (admits_weighted hx hcarries hsize).proper h₂
  have h₄ := (admits_bias (p := p)).proper h₃
  exact admits_sum.proper h₄

/-- The product element by element puts out the weighted elements, and the sum the prediction. -/
theorem under_lower {a : Nat → Option Signal} {xs : List Float} (hm : m.Proper) (hlen : xs.length = p.dimension)
    (hxs : Evaluator.gather (m.under a) .real x = .ok (.real xs)) :
    (p.lower x m).under a (m.size + 2) = .ok [.real (List.zipWith (· * ·) p.weights xs)] ∧
      (p.lower x m).under a (m.size + 4) =
        .ok [.real [(p.weights.zip xs).foldl (fun sum (w, x) => sum + w * x) 0.0 + p.bias]] := by
  let m₁ := m.push p.weightsPart
  let m₂ := m₁.push (p.productPart m.size x)
  let m₃ := m₂.push (p.weightedPart m.size x)
  let m₄ := m₃.push p.biasPart
  have h₁ : m₁.Proper := (admits_weights hsize).proper hm
  have h₂ : m₂.Proper := (admits_product hx hcarries hsize).proper h₁
  have h₃ : m₃.Proper := (admits_weighted hx hcarries hsize).proper h₂
  have h₄ : m₄.Proper := admits_bias.proper h₃
  have hs₁ : m₁.size = m.size + 1 := size_push
  have hs₂ : m₂.size = m.size + 2 := by rw [size_push, hs₁]
  have hs₃ : m₃.size = m.size + 3 := by rw [size_push, hs₂]
  have hs₄ : m₄.size = m.size + 4 := by rw [size_push, hs₃]
  -- What the input carries stays when nodes are put behind it.
  have kept {m m' : Model Builtin} {w : Wire} {z : Signal} (hext : m.Extends m')
      (h : Evaluator.gather (m.under a) .real w = .ok z) : Evaluator.gather (m'.under a) .real w = .ok z :=
    Evaluator.gather_mono h fun _ _ _ hys => under_mono hext hys
  have hweights : m₁.under a m.size = .ok [.real p.weights] :=
    (admits_weights hsize).under [] hm rfl (.cons ⟨rfl, rfl⟩ .nil) .nil rfl
  have hproduct : m₂.under a (m.size + 1) =
      .ok [.real [(p.weights.zip xs).foldl (fun sum (w, x) => sum + w * x) 0.0]] := by
    rw [← hs₁]
    refine (admits_product hx hcarries hsize).under [.real p.weights, .real xs] h₁ rfl
      (.cons ⟨rfl, rfl⟩ .nil) (.cons (gather_column hweights rfl) (.cons (kept extends_push hxs) .nil)) ?_
    exact Builtin.computeDot_real hlen.symm
  have hweighted : m₃.under a (m.size + 2) = .ok [.real (List.zipWith (· * ·) p.weights xs)] := by
    rw [← hs₂]
    refine (admits_weighted hx hcarries hsize).under [.real p.weights, .real xs] h₂ rfl (.cons ⟨rfl, ?_⟩ .nil)
      (.cons (kept extends_push (gather_column hweights rfl))
        (.cons (kept (extends_push.trans extends_push) hxs) .nil)) ?_
    · show (List.zipWith (· * ·) p.weights xs).length = (column m.size p.dimension).size
      rw [size_column (dimension_lt hsize), List.length_zipWith, hlen]
      exact Nat.min_self _
    · exact Builtin.computeBinary_real .multiply hlen.symm fun _ _ => rfl
  have hbias : m₄.under a (m.size + 3) = .ok [.real [p.bias]] := by
    rw [← hs₃]
    exact admits_bias.under [] h₃ rfl (.cons ⟨rfl, rfl⟩ .nil) .nil rfl
  have hsum : (p.lower x m).under a (m.size + 4) =
      .ok [.real [(p.weights.zip xs).foldl (fun sum (w, x) => sum + w * x) 0.0 + p.bias]] := by
    rw [← hs₄]
    refine admits_sum.under [.real [_], .real [p.bias]] h₄ rfl (.cons ⟨rfl, rfl⟩ .nil) (.cons ?_ (.cons ?_ .nil))
      (Builtin.computeBinary_real .add rfl fun _ _ => rfl)
    · exact kept (extends_push.trans extends_push) (gather_column hproduct rfl)
    · exact gather_column hbias rfl
  exact ⟨under_mono (extends_push.trans extends_push) hweighted, hsum⟩

end

theorem declares_lower (hdim : p.dimension < Size.limit) :
    (p.lower x m).Declares ⟨m.size + 2, 0⟩ ⟨"output", .real, p.dimension⟩ ∧
      (p.lower x m).Declares ⟨m.size + 4, 0⟩ ⟨"output", .real, 1⟩ := by
  have houtputs : Node.outputs (p.weightedPart m.size x) = [⟨"output", .real, p.dimension⟩] :=
    congrArg (fun k => [(⟨"output", .real, k⟩ : Output)]) (size_column hdim)
  have hweighted : (p.weigh x m).Declares ⟨((m.push p.weightsPart).push (p.productPart m.size x)).size, 0⟩
      ⟨"output", .real, p.dimension⟩ := declares_push_size (by rw [houtputs]; rfl)
  have hsum : (p.lower x m).Declares ⟨((p.weigh x m).push p.biasPart).size, 0⟩ ⟨"output", .real, 1⟩ :=
    declares_push_size rfl
  rw [size_push, size_push] at hweighted
  rw [size_push, size_weigh] at hsum
  exact ⟨hweighted.mono (extends_push.trans extends_push), hsum⟩

theorem extends_lower : m.Extends (p.lower x m) :=
  extends_push.trans (extends_push.trans (extends_push.trans (extends_push.trans extends_push)))

end Model

/-- Where the parts of a predictor behind `base` nodes have its outputs. -/
def LinearPredictor.results (base : Nat) : Nat → Outlet
  | 0 => ⟨base + 4, 0⟩
  | _ => ⟨base + 2, 0⟩

namespace Realises
variable {m m' : Model Builtin} {f : OutputMap} {p : LinearPredictor} {x : Wire}

theorem lower (h : Realises m m' f) (hm : m.Proper) (hm' : m'.Proper) (hn : m.Admits (.linear x p)) :
    (p.lower (f.image x) m').Proper ∧
      Realises (m.push (.linear x p)) (p.lower (f.image x) m')
        (f ++ .ofNode (Builtin.linear x p) m.size (LinearPredictor.results m'.size)) := by
  have hfeeds : m.Feeds x := hn.feeds (i := ⟨"input", .real, x⟩) List.mem_cons_self
  have hreach := h.reaches_wire hfeeds
  have hx := h.feeds_image hfeeds
  have hcarries : (f.image x).Carries .real := OutputMap.carries_image hreach hn.made.2
  have hsize : (f.image x).size = p.dimension := (OutputMap.size_image hreach).trans hn.made.1
  have hdeclares := Model.declares_lower (m := m') (x := f.image x) (Model.dimension_lt hsize)
  refine ⟨Model.proper_lower hx hcarries hsize hm', ?_⟩
  refine h.extend Model.extends_lower hn.exact.outputs ?_ (fun k out hout => ?_) fun a xs hxs k z hz => ?_
  · simp only [LinearPredictor.lower, LinearPredictor.weigh, Model.push, List.filter_append]
    simp [LinearPredictor.weightsPart, LinearPredictor.productPart, LinearPredictor.weightedPart,
      LinearPredictor.biasPart, LinearPredictor.sumPart, Node.isInput, Builtin.isInput]
  · rcases k with _ | _ | k
    · cases hout
      exact ⟨_, hdeclares.2, rfl, rfl⟩
    · cases hout
      exact ⟨_, hdeclares.1, rfl, rfl⟩
    · cases hout
  · have hwf : (m.trim.push (Builtin.linear x p).trim).WellFormed := Model.trim_push ▸ (hn.proper hm).wellFormed.trim
    rw [← Model.size_trim, Model.under_push_size hwf] at hxs
    obtain ⟨-, ⟨hinput, -⟩ | ⟨-, args, hargs, hcompute⟩⟩ := hxs
    · cases hinput
    -- The predictor has an argument, which its parts find on the wire that stands for its input.
    rcases Builtin.arguments_rewire.mp hargs with _ | @⟨_, y, _, _, hy, ⟨⟩⟩
    obtain ⟨l, rfl, hlen⟩ := Builtin.computeLinear_inv hcompute
    obtain ⟨hweighted, hsum⟩ := Model.under_lower hx hcarries hsize hm' hlen (h.gather_image hfeeds.has hy)
    cases hcompute.symm.trans (Builtin.computeLinear_eq hlen)
    rcases k with _ | _ | k
    · cases hz
      exact ⟨_, hsum, rfl⟩
    · cases hz
      exact ⟨_, hweighted, rfl⟩
    · cases hz

end Realises

end Dataflow
