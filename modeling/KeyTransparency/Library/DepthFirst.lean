/-
# Depth-first traversals

A loop takes the first node off a stack, passes over it or visits it, and in the latter
case puts its children on the stack.  `DepthFirst` relates a stack to the names of the
nodes that are visited, in order.  Stacks can be taken apart (`DepthFirst.append`), so
that the visits below a node follow from those below its children, and the number of
visits bounds the turns of the loop.
-/

import Mathlib.Data.List.Basic

variable {ν β : Type*}

/-- From the stack, the nodes with the given names are visited. -/
inductive DepthFirst (expand : ν → Option (List ν)) (name : ν → β) : List ν → List β → Prop
  | done : DepthFirst expand name [] []
  | skip {x : ν} {stack : List ν} {l : List β} (hx : expand x = none)
      (h : DepthFirst expand name stack l) : DepthFirst expand name (x :: stack) l
  | visit {x : ν} {children stack : List ν} {l : List β} (hx : expand x = some children)
      (h : DepthFirst expand name (children ++ stack) l) : DepthFirst expand name (x :: stack) (name x :: l)

namespace DepthFirst

variable {expand : ν → Option (List ν)} {name : ν → β} {stack stack' : List ν} {l l' : List β}

/-- What lies above on a stack is visited first. -/
theorem append (h : DepthFirst expand name stack l) (h' : DepthFirst expand name stack' l') :
    DepthFirst expand name (stack ++ stack') (l ++ l') := by
  induction h with
  | done => exact h'
  | skip hx _ ih => exact .skip hx ih
  | visit hx _ ih =>
    rw [List.append_assoc] at ih
    exact .visit hx ih

/-- A node is visited before what is below its children. -/
theorem node {x : ν} {children : List ν} (hx : expand x = some children)
    (h : DepthFirst expand name children l) : DepthFirst expand name [x] (name x :: l) :=
  .visit hx (by rwa [List.append_nil])

/-- **The visits are determined** by the stack. -/
theorem unique (h : DepthFirst expand name stack l) (h' : DepthFirst expand name stack l') : l = l' := by
  induction h generalizing l' with
  | done =>
    cases h'
    rfl
  | skip hx _ ih =>
    cases h' with
    | skip _ h' => exact ih h'
    | visit hx' _ => cases hx.symm.trans hx'
  | visit hx _ ih =>
    cases h' with
    | skip hx' _ => cases hx.symm.trans hx'
    | visit hx' h' =>
      obtain rfl := Option.some.inj (hx.symm.trans hx')
      rw [ih h']

end DepthFirst
