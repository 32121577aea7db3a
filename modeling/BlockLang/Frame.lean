import BlockLang.Declaration

/-!
# Frames

The frame of a running function is laid out around a base. Above the base stand
the caller's base, the return address, the link to the frame of the enclosing
function and the arguments; below it stand the variables in their order and then
the temporaries. Integers start on a word boundary, characters are packed.
-/

namespace BlockLang

/-- The offsets of variables and temporaries below the base of a frame. -/
structure Frame where
  /-- The variables, those placed last in front. -/
  locals : List (String × Int)
  /-- The temporaries, those placed last in front. -/
  temps : List (Nat × Int)
  /-- The number of bytes below the base, whole words. -/
  size : Nat

namespace Frame

/-- The size of a machine word in bytes. -/
def word : Nat := 4

/-- The offset of the link to the frame of the enclosing function. -/
def linkOffset : Int := 8

/-- The offset of an argument, as a signed 32-bit number. -/
def argumentOffset (position : Nat) : Int := Int.bmod (12 + word * position) wordLimit

/-- The number of bytes of so many words, as a signed 32-bit number. -/
def argumentBytes (words : Nat) : Int := Int.bmod (word * words) wordLimit

/-- The least number of whole words that holds so many bytes, in bytes. -/
def align (bytes : Nat) : Nat := (bytes + (word - 1)) / word * word

/-- The bytes in use after an item has been placed below `top` bytes, if its offset
still fits. -/
def place? (top : Nat) (ty : Ty) (size : Nat) : Option Nat :=
  let top := (if ty = .int then align top else top) + size
  if top < offsetLimit then some top else none

/-- Places items one below the other, from `top` bytes on. -/
def placeAll? {κ : Type} (items : List (κ × Ty × Nat)) (top : Nat) :
    Option (List (κ × Int) × Nat) :=
  items.foldlM (fun (placed, top) (key, ty, size) => do
    let top ← place? top ty size
    return ((key, -(top : Int)) :: placed, top)) ([], top)

/-- The frame with given variables and temporaries, if all offsets fit. -/
def layout? (locals : List Variable) (temps : List (Nat × Ty)) : Option Frame := do
  let sized ← locals.mapM fun v => do return (v.name, v.ty, ← v.size?)
  let (locals, top) ← placeAll? sized 0
  let (temps, top) ← placeAll? (temps.map fun (n, ty) => (n, ty, ty.size)) top
  let size := align top
  if size < offsetLimit then some ⟨locals, temps, size⟩ else none

/-- The offset of a variable. -/
def variableOffset? (f : Frame) (name : String) : Option Int := f.locals.lookup name

/-- The offset of a temporary. -/
def tempOffset? (f : Frame) (number : Nat) : Option Int := f.temps.lookup number

end Frame

end BlockLang
