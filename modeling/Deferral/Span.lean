/-!
# Spans of source text

A span is a half-open range of byte offsets. `Span.absent` stands for "no text yet": it is neutral for `Span.merge`,
which otherwise gives the smallest span over both arguments.
-/

namespace Deferral

/-- The byte offsets from `start` up to, not including, `stop`. -/
structure Span where
  start : Nat
  stop : Nat
  deriving DecidableEq, Repr, Inhabited

namespace Span

/-- The span of a construct that has no text. -/
def absent : Span := ⟨0, 0⟩

def isAbsent (s : Span) : Bool := s == absent

def isEmpty (s : Span) : Bool := s.stop ≤ s.start

def length (s : Span) : Nat := s.stop - s.start

/-- The smallest span over both, where `absent` adds nothing. -/
def merge (a b : Span) : Span :=
  if a.isAbsent then b
  else if b.isAbsent then a
  else ⟨min a.start b.start, max a.stop b.stop⟩

/-- Whether `inner` lies within `outer`. -/
def contains (outer inner : Span) : Bool := outer.start ≤ inner.start && inner.stop ≤ outer.stop

/-- A span as messages write it. -/
def render (s : Span) : String := s!"[{s.start}..{s.stop})"

end Span

end Deferral
