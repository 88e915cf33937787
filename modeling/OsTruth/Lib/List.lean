/-
`lib/kernel/list.c` on links that are stored in the elements.

A list is given by its two end nodes.  The `NULL` before the head and behind the tail is
never read and left out.  A loop over a list gets a number of nodes that no list exceeds.
-/
import OsTruth.Kernel.Global
import OsTruth.Library.Links

namespace OsTruth

structure ListEnds (α : Type) where
  head : α
  tail : α

variable {α : Type} [DecidableEq α]

def listInit (m : Links α) (plist : ListEnds α) : Links α where
  next := Function.update m.next plist.head plist.tail
  prev := Function.update m.prev plist.tail plist.head

/-- `list_push`, which inserts before the first element. -/
def listPush (m : Links α) (plist : ListEnds α) (elem : α) : Links α :=
  m.insertBefore (m.next plist.head) elem

def listAppend (m : Links α) (plist : ListEnds α) (elem : α) : Links α :=
  m.insertBefore plist.tail elem

def listRemove (m : Links α) (pelem : α) : Links α := m.remove pelem

def listPop (m : Links α) (plist : ListEnds α) : α × Links α :=
  (m.next plist.head, listRemove m (m.next plist.head))

/-- `elem_find` in a list of fewer than `bound` elements. -/
def elemFind (m : Links α) (plist : ListEnds α) (objElem : α) (bound : Nat) : Except Fault Bool :=
  match m.walk plist.tail objElem bound (m.next plist.head) with
  | some found => .ok found
  | none => .error .undefined

def listEmpty (m : Links α) (plist : ListEnds α) : Bool :=
  decide (m.next plist.head = plist.tail)

end OsTruth
