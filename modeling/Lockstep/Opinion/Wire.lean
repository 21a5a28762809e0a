import Lockstep.Opinion.Basic

/-! What the other side of a session receives of an opinion. -/
namespace Lockstep

/-- The copy of an opinion that travels: its samples and hashes under remote
origin. Trace entries and maps with no samples stay behind. -/
def Opinion.wire (o : Opinion) : Opinion :=
  { o with origin := .remote, maps := o.maps.compact, entries := [] }

namespace Opinion
variable (o : Opinion)

@[simp] theorem range_wire : o.wire.range = o.range := rfl

@[simp] theorem hashes_wire : o.wire.hashes = o.hashes := rfl

@[simp] theorem samples_wire (c : Category) : o.wire.samples c = o.samples c := by
  cases c with
  | command | world => rfl
  | map => exact SampleMap.samples_compact _ _

@[simp] theorem mapIds_wire : o.wire.mapIds = o.mapIds := SampleMap.ids_compact _

end Opinion

end Lockstep
