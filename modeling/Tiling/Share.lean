/-!
# Shares of siblings

A node's size is its share of the extent that it divides with its siblings. Shares are single
precision numbers, and each step of the arithmetic rounds to single precision. `normalize` makes a
group of shares usable and scales it to a fixed total.
-/

namespace Tiling.Share

/-- What the shares of a group of siblings add up to. -/
def whole : Float32 := 100.0

/-- A total this close to `whole` is left alone, so that rounding does not move a settled group. -/
def tolerance : Float32 := 1e-3

def usable (share : Float32) : Bool :=
  share.isFinite && 0.0 < share

def total (shares : List Float32) : Float32 :=
  -- Negative zero is the neutral element of addition.
  shares.foldl (· + ·) (-0.0)

def count (shares : List Float32) : Float32 :=
  shares.length.toUInt64.toFloat32

def mean (shares : List Float32) : Float32 :=
  total shares / count shares

def repair (shares : List Float32) : List Float32 :=
  let sound := shares.filter usable
  let fallback := if sound.isEmpty then whole else mean sound
  shares.map fun share => if usable share then share else fallback

def rescale (shares : List Float32) : List Float32 :=
  let sum := total shares
  if sum ≤ 0.0 || !sum.isFinite || (sum - whole).abs < tolerance then shares
  else
    let scale := whole / sum
    shares.map (· * scale)

def normalize (shares : List Float32) : List Float32 :=
  rescale (repair shares)

@[simp] theorem length_repair (shares : List Float32) : (repair shares).length = shares.length := by
  simp [repair]

@[simp] theorem length_rescale (shares : List Float32) :
    (rescale shares).length = shares.length := by
  simp only [rescale]
  split <;> simp

@[simp] theorem length_normalize (shares : List Float32) :
    (normalize shares).length = shares.length := by
  simp [normalize]

end Tiling.Share
