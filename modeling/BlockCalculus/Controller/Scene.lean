import BlockCalculus.Block.Listing
import BlockCalculus.Evaluation.Walk

/-!
# Scenes

A run goes on while its tree is being edited. A block that the run came upon may since have moved,
changed, or been taken out of the tree together with what is below it; it is the same block all the
same, and the run goes on with it. A scene is all that a run may come back to: the tree as it is,
and the parts that edits took out of it (`edited`).

A block is found again by its serial number (`now`), first of all where it was last. So as long as
nobody edits the tree, what the run came upon is where it was.
-/

namespace BlockCalculus

/-- A tree, and parts that have been taken out of it. -/
structure Scene where
  tree : Block
  detached : List Block := []

namespace Block

/-- The first block of a serial number. -/
def ofSerial? (serial : Nat) (b : Block) : Option Block :=
  b.listing.find? fun c => c.head.serial == serial

/-- The serial numbers of a tree. -/
def serials (b : Block) : List Nat :=
  b.listing.map fun c => c.head.serial

mutual

/-- The parts of a tree whose roots are not among the kept blocks. What is below such a root goes
with it. -/
def without (kept : List Nat) : Block → List Block
  | ⟨head, slots⟩ =>
    if kept.contains head.serial then withoutAll kept slots else [⟨head, slots⟩]

/-- The parts in slots whose roots are not among the kept blocks. -/
def withoutAll (kept : List Nat) : List Slot → List Block
  | [] => []
  | ⟨_, none⟩ :: rest => withoutAll kept rest
  | ⟨_, some b⟩ :: rest => without kept b ++ withoutAll kept rest

end

/-- Changes the head of the first block that has a property, in the first tree that has one. -/
def updateAmong (p : Head → Bool) (f : Head → Head) : List Block → List Block
  | [] => []
  | b :: rest =>
    match b.updateFirst? p f with
    | some b' => b' :: rest
    | none => b :: updateAmong p f rest

end Block

namespace Scene

/-- The scene after the tree was edited. What is no longer in the tree is kept apart. -/
def edited (tree : Block) (scene : Scene) : Scene :=
  ⟨tree, scene.detached ++ scene.tree.without tree.serials⟩

/-- The block of a site, if it is still where the site says. -/
def inPlace? (site : Site) (scene : Scene) : Option Block :=
  (scene.tree.at? site.position).filter fun b => b.head.serial == site.block.head.serial

/-- The block of a site as it is now. -/
def now (site : Site) (scene : Scene) : Block :=
  match scene.inPlace? site with
  | some b => b
  | none =>
    ((scene.tree :: scene.detached).findSome? (Block.ofSerial? site.block.head.serial)).getD
      site.block

/-- What a walk sees when it looks at a site: the block as it is now, but for what evaluations
noted on it. -/
def view (site : Site) (scene : Scene) : Block :=
  (scene.now site).clearTrace

/-- Notes a step on its block, wherever that is now. -/
def record (s : Step) (scene : Scene) : Scene :=
  let isIt (h : Head) : Bool := h.serial == s.block.head.serial
  if (scene.inPlace? s.toSite).isSome then { scene with tree := s.record scene.tree }
  else
    match scene.tree.updateFirst? isIt s.mark with
    | some tree => { scene with tree }
    | none => { scene with detached := Block.updateAmong isIt s.mark scene.detached }

/-- Takes a step: notes it if the evaluation is traced. -/
def trace (on : Bool) (s : Step) (scene : Scene) : Scene :=
  if on then scene.record s else scene

end Scene

end BlockCalculus
