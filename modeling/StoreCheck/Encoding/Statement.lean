import StoreCheck.Encoding.Branch
import StoreCheck.Encoding.Loop
import StoreCheck.Encoding.Update

/-!
# Encoding of statements and blocks

Each statement has a rule of its own, which takes the encodings of its blocks; the walk only puts the rules together.
-/

namespace StoreCheck.Encode

mutual

def statement (L : Layout) : Statement → Encode Unit
  | .assign var value => assign L var value
  | .create className var => create L className var
  | .delete objects => delete L objects
  | .createTuple source relation target => updateTuples L source relation target .add
  | .deleteTuple source relation target => updateTuples L source relation target .remove
  | .ifElse condition thenBlock elseBlock => ifElse L condition (block L thenBlock) (block L elseBlock)
  | .either branches => either L (blocks L branches)
  | .forEach var domain body order => forEach L var domain body order (block L body)

def block (L : Layout) : List Statement → Encode Unit
  | [] => return ()
  | s :: rest => do
    statement L s
    block L rest

/-- The encodings of blocks, each on its own. -/
def blocks (L : Layout) : List (List Statement) → List (Encode Unit)
  | [] => []
  | b :: rest => block L b :: blocks L rest

end

end StoreCheck.Encode
