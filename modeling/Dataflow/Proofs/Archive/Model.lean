import Dataflow.Proofs.Archive.Reading
import Dataflow.Proofs.Obtained

/-! # Archived models

Every model of built-in nodes that can be obtained is restored from its archive, node for node. It has
one unless a number in it exceeds the 64-bit signed range. -/

namespace Dataflow
namespace Model

variable {m : Model Builtin}

theorem unarchive_record (h : m.WellBuilt) (hstorable : ∀ n ∈ m.numbers, Archive.isStorable n = true) :
    unarchive Builtin.registry m.record = .ok m := by
  have harray : m.record.array "nodes" = .ok (m.nodes.map Builtin.record) := Archive.array_eq_ok.mpr rfl
  have hnodes : (m.nodes.map Builtin.record).mapM Builtin.registry.instantiate = .ok m.nodes := by
    rw [Result.mapM_eq_ok, List.forall₂_map_left_iff, List.forall₂_same]
    intro n hn
    exact Builtin.instantiate_record (fun i hi => hstorable i (List.mem_flatMap.mpr ⟨n, hn, hi⟩)) (h.made n hn)
  have hall : empty.addAll m.nodes = .ok m := (addAll_eq_ok wellFormed_empty).mpr ⟨rfl, h.wellFormed⟩
  have hrecord : ofRecord Builtin.registry m.record = .ok m := by
    rw [ofRecord, harray, Result.ok_bind, hnodes, Result.ok_bind, hall]
  exact unarchive_eq_ok.mpr ⟨rfl, hrecord⟩

end Model

namespace Obtained
variable {m : Model Builtin}

/-- Archiving a model fails just when a number that it would write exceeds the range, and names one that
    does. Otherwise the archive gives back the same nodes, each with its type, its wires with all their
    spans, and its values. -/
theorem archived_and_restored (h : Obtained m) :
    ((∃ e, Archive.archive m = .error e) ↔ ∃ n ∈ m.numbers, Int64.maxValue.toInt < n) ∧
    (∀ e, Archive.archive m = .error e → ∃ n ∈ m.numbers, Int64.maxValue.toInt < n ∧
      e = .outOfRange (toString n) "int") ∧
    ∀ r, Archive.archive m = .ok r → Model.unarchive Builtin.registry r = .ok m := by
  have hrange : ∀ n, Archive.isStorable n = false ↔ Int64.maxValue.toInt < n := by
    intro n
    simp [Archive.isStorable]
  have herror : ∀ e, Archive.archive m = .error e →
      ∃ n ∈ m.numbers, Int64.maxValue.toInt < n ∧ e = .outOfRange (toString n) "int" := by
    intro e he
    obtain ⟨n, hn, hout, rfl⟩ := Archive.stored_eq_error (m.archive_eq ▸ he)
    exact ⟨n, hn, (hrange n).mp hout, rfl⟩
  have hok : ∀ r, Archive.archive m = .ok r → (∀ n ∈ m.numbers, Archive.isStorable n = true) ∧ m.record = r := by
    intro r hr
    exact Archive.stored_eq_ok.mp (m.archive_eq ▸ hr)
  refine ⟨⟨?_, ?_⟩, herror, ?_⟩
  · rintro ⟨e, he⟩
    obtain ⟨n, hn, hlarge, -⟩ := herror e he
    exact ⟨n, hn, hlarge⟩
  · rintro ⟨n, hn, hlarge⟩
    rcases hr : Archive.archive m with e | r
    · exact ⟨e, rfl⟩
    · have hstorable := (hok r hr).1 n hn
      rw [(hrange n).mpr hlarge] at hstorable
      cases hstorable
  · intro r hr
    obtain ⟨hstorable, rfl⟩ := hok r hr
    exact Model.unarchive_record h.wellBuilt hstorable

/-- Two elements in three spans, of which the second is empty. -/
def inThree : Wire := ⟨[⟨0, 0, .real, 0, 1⟩, ⟨0, 0, .real, 1, 0⟩, ⟨0, 0, .real, 1, 1⟩], by simp⟩

def weighing : Model Builtin := ⟨[.input .real 2, .linear inThree ⟨[0.5, -2.0], 1.0⟩]⟩

/-- An input that is too large to be archived. -/
def vast : Model Builtin := ⟨[.input .int 9223372036854775808]⟩

theorem weighing_restored_vast_refused :
    (∃ r, Archive.archive weighing = .ok r ∧ Model.unarchive Builtin.registry r = .ok weighing) ∧
      Archive.archive vast = .error (.outOfRange "9223372036854775808" "int") := by
  have hlinear : Builtin.makeLinear inThree ⟨[0.5, -2.0], 1.0⟩ = .ok _ := rfl
  have hweighing : Obtained weighing := (Obtained.empty.add (.input .real 2) rfl).add (.linear hlinear) rfl
  obtain ⟨hfails, -, hrestores⟩ := archived_and_restored hweighing
  obtain ⟨hfails', herror, -⟩ := archived_and_restored (Obtained.empty.add (.input .int 9223372036854775808) rfl)
  constructor
  · rcases hr : Archive.archive weighing with e | r
    · obtain ⟨n, hn, hlarge⟩ := hfails.mp ⟨e, hr⟩
      have hall : ∀ n ∈ weighing.numbers, n ≤ Int64.maxValue.toInt := by decide
      exact absurd hlarge (Int.not_lt.mpr (hall n hn))
    · exact ⟨r, rfl, hrestores r hr⟩
  · obtain ⟨e, he⟩ := hfails'.mpr ⟨_, List.mem_singleton_self _, by decide⟩
    obtain ⟨n, hn, -, rfl⟩ := herror e he
    obtain rfl := List.mem_singleton.mp hn
    exact he

end Obtained
end Dataflow
