import LoxLang.Store.Heap

/-! The store: frames, and a heap of functions that each keep the frame they were declared in. -/

namespace LoxLang

structure Store extends Heap FrameId where
  frames : Frames

namespace Store

def empty : Store := ⟨.empty, .empty⟩

def addFrame (s : Store) (outer : Option FrameId) (names : Names) : FrameId × Store :=
  (s.frames.next, { s with frames := s.frames.add outer names })

/-- Changes the heap, with a result. -/
@[inline] def inHeap {α : Type} (s : Store) (f : Heap FrameId → α × Heap FrameId) : α × Store :=
  let (a, heap) := f s.toHeap
  (a, { s with toHeap := heap })

/-- A function like the given one that runs with `this` naming an instance. -/
def bind (s : Store) (k : Closure FrameId) (o : ObjectId) : Closure FrameId × Store :=
  let (frame, s) := s.addFrame (some k.home) ((∅ : Names).insert "this" (.object o))
  ({ k with home := frame }, s)

end Store

end LoxLang
