import Aout.Linking.Concatenation
import Aout.Notice
/-!
Linking: objects get load addresses, every one is relocated against all of them, and the first one
takes in the others in turn. The image starts at its entry symbol, or at the start of its text if
nothing defines that symbol.
-/

set_option autoImplicit false
set_option relaxedAutoImplicit false

namespace Aout

namespace Image

/-- One object from relocated ones: the first takes in the others. -/
def fold : List Relocated → Except LinkFault Relocated
  | [] => .error .nothingToLink
  | first :: rest => rest.foldlM (fun image module ↦ (image.concat module).result) first

/-- Where the image starts, and what there is to say about it. -/
def entryAddress (image : Relocated) (entrySymbol : String) : UInt32 × List Notice :=
  match (image.object.symbols.find? entrySymbol).filter (·.isDefined) with
  | some symbol => (image.addressOf symbol, [])
  | none => (image.bases.text, [.entryUndefined entrySymbol])

end Image

/-- Link objects into one image whose text starts at `textBase`. -/
def link (objects : List Object) (textBase : UInt16) (entrySymbol : String) :
    Except LinkFault (Object × List Notice) :=
  if objects.isEmpty then .error .nothingToLink
  else do
    let bases ← layout objects textBase
    let modules ← Placed.relocateAll ((objects.zip bases).map fun (object, bases) ↦ ⟨object, bases⟩)
    let image ← Image.fold modules
    let (address, notices) := Image.entryAddress image entrySymbol
    match Word.narrow? address with
    | none => .error (.entryTooWide address)
    | some entry =>
      let linked := (image.setEntryPoint entry).toObject
      return (linked, notices ++
        [.linked objects.length (linked.size .text) (linked.size .data) (linked.size .bss) entry])

end Aout
