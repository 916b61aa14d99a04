import Allox.Carve

/-!
# The checks of a debug build

Before a block goes back, a debug build looks whether the address can be one: it divides out the block
size and walks the free list for a second free. Each tier has a check of its own, and each works out the
layout of its pages again.
-/

namespace Allox

/-- What a check comes to: it returns, or the process is aborted with a message. -/
inductive Verdict where
  | returns
  | invalid (message : String)
  deriving DecidableEq

/-- The end of each check: the walk over at most `free_count` links. -/
def walkFreeList (m : ByteMemory) (p : Nat) (guarded : Bool) (steps head : Nat) : Option Verdict := do
  if ← m.search wordSize p guarded steps head then pure (.invalid "allox: double free detected")
  else pure .returns

/-- `debug_validate_free`, if no read faults. -/
def debugValidateFree (m : ByteMemory) (p : Nat) : Option Verdict :=
  if p = 0 then pure .returns
  else do
    let base := p / pageSize * pageSize
    let magic ← m.load base 8
    if magic ≠ pageMagic then pure (.invalid "allox: dealloc of pointer outside allocator pages")
    else
      let cls ← m.load (base + 36) 2
      let blockSize := classes.getD cls 0
      let offset := p - base
      if offset < headerSize || (offset - headerSize) % blockSize ≠ 0 then
        pure (.invalid "allox: dealloc of misaligned interior pointer")
      else
        let head ← m.load (base + 24) 8
        let steps ← m.load (base + 32) 2
        walkFreeList m p false steps head

/-- The area test of the two span checks. -/
def checkArea (p start stop blockSize : Nat) (next : Option Verdict) (message : String) :
    Option Verdict :=
  if p < start || stop < p + blockSize then pure (.invalid message)
  else if (p - start) % blockSize ≠ 0 then pure (.invalid message)
  else next

section

-- `arena::contains`
variable (arena : Nat → Nat → Bool)

/-- `debug_validate_free_medium`. -/
def debugValidateFreeMedium (m : ByteMemory) (p span : Nat) : Option Verdict :=
  if p = 0 || span = 0 then pure (.invalid "allox: medium dealloc of null")
  else do
    let mclass ← m.load (span + 40) 2
    let blockSize := mediumClasses.getD mclass 0
    let npages ← m.load (span + 44) 4
    if p ≤ span || span + npages * pageSize ≤ p then
      pure (.invalid "allox: medium dealloc outside owning span")
    else
      let walk : Option Verdict := do
        let head ← m.load (span + 24) 8
        let steps ← m.load (span + 32) 4
        walkFreeList m p true steps head
      let misaligned := "allox: medium dealloc of misaligned interior pointer"
      if arena span (npages * pageSize) then
        checkArea p (span + spanMasterSize) (span + npages * pageSize) blockSize walk misaligned
      else
        let rel := (p - span) / pageSize
        let chunk := span + rel * pageSize
        if rel = 0 then
          checkArea p (chunk + spanMasterSize) (chunk + pageSize) blockSize walk misaligned
        else do
          let magic ← m.load chunk 8
          if magic ≠ spanSubmagic then
            pure (.invalid "allox: medium dealloc through corrupt sub-page")
          else checkArea p (chunk + spanSubSize) (chunk + pageSize) blockSize walk misaligned

/-- `debug_validate_free_big`. -/
def debugValidateFreeBig (m : ByteMemory) (p span : Nat) : Option Verdict :=
  if p = 0 || span = 0 then pure (.invalid "allox: big dealloc of null")
  else do
    let bclass ← m.load (span + 40) 2
    let blockSize := bigClasses.getD bclass 0
    let npages ← m.load (span + 44) 4
    if p ≤ span || span + npages * pageSize ≤ p then
      pure (.invalid "allox: big dealloc outside owning span")
    else
      let walk : Option Verdict := do
        let head ← m.load (span + 24) 8
        let steps ← m.load (span + 32) 4
        walkFreeList m p true steps head
      checkArea p (span + bigMasterSize) (span + npages * pageSize) blockSize walk
        "allox: big dealloc of misaligned interior pointer"

end

end Allox
