import LiveScheme.Proofs.Reading.ReadBack
import LiveScheme.Proofs.Value.Standard

/-!
# The shape of what is read

Data read from a text live up to every standard: a dotted list has elements in front of its dot, and
a tail that is itself a list or a pair is merged into it.
-/

namespace LiveScheme.Datum

theorem Over.meets {S : Standard} {p : Datum → Prop} {d : Datum} (h : Over p d) : Meets S d := by
  induction h with
  | bool | int | real | str | char | sym => rfl
  | list items _ ih => exact meets_list.mpr ih
  | vector items _ ih => exact meets_vector.mpr ih
  | improper items tail hne _ _ hflat ih iht =>
    exact meets_improper.mpr ⟨.inr ⟨hne, hflat⟩, ih, iht⟩

theorem meets_readAll {S : Standard} {source : String} {forms : List Datum}
    (h : readAll source = .ok forms) : Meets S forms :=
  fun d hd => (named_of_readAll h d hd).meets

variable {S : Standard}

mutual

/-- Data hold no objects, so only their pairs can be amiss. -/
theorem meets_of_loose (hS : S.loosePairs = true) : ∀ d : Datum, Meets S d
  | .bool _ | .int _ | .real _ | .str _ | .char _ | .sym _ => rfl
  | .list items => meets_list.mpr (meets_all_of_loose hS items)
  | .vector items => meets_vector.mpr (meets_all_of_loose hS items)
  | .improper items tail =>
    meets_improper.mpr ⟨.inl hS, meets_all_of_loose hS items, meets_of_loose hS tail⟩
  | .object kind _ => kind.elim

theorem meets_all_of_loose (hS : S.loosePairs = true) : ∀ ds : List Datum, Meets S ds
  | [] => meets_nil.mpr trivial
  | d :: rest => meets_cons.mpr ⟨meets_of_loose hS d, meets_all_of_loose hS rest⟩

end

end LiveScheme.Datum
