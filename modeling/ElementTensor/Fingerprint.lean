/-!
Fingerprints: numbers that tell different things apart at once. Equal things have equal ones; that
different things share one is possible, but does not happen by accident.
-/
namespace ElementTensor

abbrev Fingerprint := UInt64

namespace Fingerprint

/-- Takes a number into a fingerprint. Every bit of the result depends on all bits of both, and the
order in which numbers are taken in matters. -/
def mix (h k : Fingerprint) : Fingerprint :=
  let x := ((h + 0x9e3779b97f4a7c15) * 0xbf58476d1ce4e5b9) ^^^ k
  let y := (x ^^^ (x >>> 30)) * 0x94d049bb133111eb
  y ^^^ (y >>> 31)

/-- Takes in the length of a list and its items. -/
def mixNats (h : Fingerprint) (l : List Nat) : Fingerprint :=
  l.foldl (fun h n => h.mix n.toUInt64) (h.mix l.length.toUInt64)

def mixText (h : Fingerprint) (s : String) : Fingerprint := h.mixNats (s.toList.map Char.toNat)

end Fingerprint
end ElementTensor
