import AndroidBuild.Compliance.TopDownConditions

/-!
# Conflicts between sharing and privacy

`ConflictingSharedPrivateSource` lists the shipped targets whose source must be
shared under one condition and kept private under another.  It goes twice over
the map of `WalkActionsForCondition`: once for the size of the list and once
for the list, each time in an order of its own.
-/

namespace AndroidBuild
namespace Compliance

namespace LicenseGraph

variable (lg : LicenseGraph)

end LicenseGraph

section Conflicts

variable (licenseConditions : String → LicenseConditionSet) (s : TraceState)

end Conflicts

section ShippedOnce

variable {lg : LicenseGraph} {σ γ : Type}

variable {rank : String → Nat}

end ShippedOnce

section Listing

variable {lg : LicenseGraph} {licenseConditions : String → LicenseConditionSet} {s : TraceState}
  {action : String × LicenseConditionSet} {sizing listing : List (String × LicenseConditionSet)}

variable {rank : String → Nat}

end Listing

end Compliance
end AndroidBuild
