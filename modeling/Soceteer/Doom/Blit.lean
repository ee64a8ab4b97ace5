import Mathlib.Tactic.Ring
import Soceteer.Lib.Moves

/-!
# Soceteer.Doom.Blit — frames of the engine on the framebuffer

The platform layer of the game (`userspace/doom/doomgeneric_soct.c`).  `DG_DrawFrame` compares the frame of the
engine with the one before, and worker threads expand the changed rows and write them to the framebuffer while the
engine goes on.

* `Framebuffer`, `Setup`: the screen, and what `DG_Init` finds and decides.
* `Loc`, `Mem`: the bytes of `prev`, of the staging slab `framebuf` and of the framebuffer.
* `rowMoves`, `expandBand`, `writeBand`: what `blit_band` stores before and after the barrier, byte by byte.
* `St`, `Event`, `step`: the engine, `DG_DrawFrame` and the workers; the workers' stores come in any order that the
  barriers allow.
-/

namespace Soceteer.Doom

open Soceteer.Lib

/-! ## The screen -/

/-- `DOOMGENERIC_RESX` -/
def resX : ℕ := 320

/-- `DOOMGENERIC_RESY` -/
def resY : ℕ := 200

/-- The screen information of a device with 24 bits per pixel that is large enough for the game; the lengths are
those of memory that is there, so that no product of them overflows. -/
structure Framebuffer where
  xres : ℕ
  yres : ℕ
  yresVirtual : ℕ
  lineLength : ℕ
  smemLen : ℕ
  wide : resX ≤ xres
  tall : resY ≤ yres
  line : 3 * xres ≤ lineLength
  virt : yres ≤ yresVirtual
  size : yresVirtual * lineLength ≤ smemLen
  word : smemLen < 2 ^ 32

namespace Framebuffer

variable (fb : Framebuffer)

/-- Up to eight times, as the patterns hold no more. -/
def scale : ℕ :=
  let scale := fb.xres / resX
  let scale := if fb.yres / resY < scale then fb.yres / resY else scale
  if scale > 8 then 8 else scale

def x0 : ℕ := (fb.xres - resX * fb.scale) / 2

def y0 : ℕ := (fb.yres - resY * fb.scale) / 2

def scale3 : ℕ := fb.scale * 3

end Framebuffer

/-- `want_mmap`, whether `mmap` succeeds, and the number of processors. -/
structure Setup extends Framebuffer where
  wantMmap : Bool
  mmapOk : Bool
  ncpu : ℕ

namespace Setup

variable (C : Setup)

/-- The virtual screen holds two frames. -/
def two : Bool := 2 * C.yres ≤ C.yresVirtual

/-- `flip` when the letterbox is drawn. -/
def flipFirst : Bool := !C.wantMmap && C.two

/-- `fbmap` is not `NULL`. -/
def fbmap : Bool := C.wantMmap && C.mmapOk

/-- `flip` when the set-up is over: a mapping that has failed brings it back. -/
def flip : Bool := if C.wantMmap && !C.mmapOk then C.two else C.flipFirst

/-- `back` at first. -/
def backFirst : ℕ := if C.flipFirst then 1 else 0

def nworkers : ℕ := if 2 ≤ C.ncpu then 2 else 1

/-- The lines that are made black. -/
def letterboxLines : ℕ := C.yres * if C.flipFirst then 2 else 1

end Setup

/-! ## Memory -/

/-- A byte of `prev`, of `framebuf`, or of the framebuffer. -/
inductive Loc
  | prev (i : ℕ)
  | framebuf (i : ℕ)
  | screen (i : ℕ)
deriving DecidableEq

abbrev Mem := Loc → UInt8

/-- A frame of the engine: the palette index of a pixel, by row and column. -/
abbrev Frame := ℕ → ℕ → UInt8

structure Color where
  b : UInt8
  g : UInt8
  r : UInt8
deriving DecidableEq

/-- The byte of a pixel. -/
def Color.byte (c : Color) (k : ℕ) : UInt8 := if k = 0 then c.b else if k = 1 then c.g else c.r

abbrev Palette := UInt8 → Color

/-- `pat` -/
abbrev Patterns := UInt8 → ℕ → UInt8

/-! ## `blit_band` -/

section Blit

variable (C : Setup)

/-- `line + off` for row `y`. -/
def lineLoc (y off : ℕ) : Loc :=
  if C.fbmap then .screen ((C.y0 + y * C.scale) * C.lineLength + C.x0 * 3 + off)
  else .framebuf (y * C.scale * C.lineLength + C.x0 * 3 + off)

/-- `memcpy(prev + …, row, …)` -/
def prevMoves (snap : Frame) (y : ℕ) : List (Move Loc UInt8) :=
  (List.range resX).map fun x => ⟨.prev (y * resX + x), .inl (snap y x)⟩

/-- The first line of a row, pixel by pixel. -/
def patMoves (snap : Frame) (pat : Patterns) (y : ℕ) : List (Move Loc UInt8) :=
  (List.range resX).flatMap fun x => (List.range C.scale3).map fun b =>
    ⟨lineLoc C y (x * C.scale3 + b), .inl (pat (snap y x) b)⟩

/-- The other lines are copies of the first one. -/
def copyMoves (y : ℕ) : List (Move Loc UInt8) :=
  (List.range' 1 (C.scale - 1)).flatMap fun r => (List.range (resX * C.scale3)).map fun j =>
    ⟨lineLoc C y (r * C.lineLength + j), .inr (lineLoc C y j)⟩

/-- What is stored for a row that is to be expanded. -/
def rowMoves (snap : Frame) (pat : Patterns) (y : ℕ) : List (Move Loc UInt8) :=
  prevMoves snap y ++ patMoves C snap pat y ++ copyMoves C y

/-- The rows of worker `wi`, of `n`. -/
def band (writeRows : List ℕ) (n wi : ℕ) : List ℕ :=
  let per := writeRows.length / n
  let lo := wi * per
  let hi := if wi = n - 1 then writeRows.length else lo + per
  (writeRows.drop lo).take (hi - lo)

/-- The stores of a worker in front of the barrier. -/
def expandBand (snap : Frame) (pat : Patterns) (expandRow : ℕ → Bool) (rows : List ℕ) : List (Move Loc UInt8) :=
  rows.flatMap fun y => if expandRow y then rowMoves C snap pat y else []

/-- `pwrite` of the lines from row `r0` to row `r1`. -/
def pwriteMoves (back r0 r1 : ℕ) : List (Move Loc UInt8) :=
  (List.range ((r1 - r0 + 1) * C.scale * C.lineLength)).map fun j =>
    ⟨.screen ((back * C.yres + C.y0 + r0 * C.scale) * C.lineLength + j),
      .inr (.framebuf (r0 * C.scale * C.lineLength + j))⟩

/-- The stores of a worker behind the barrier. -/
def writeBand (back : ℕ) (rows : List ℕ) : List (Move Loc UInt8) :=
  match rows.head?, rows.getLast? with
  | some r0, some r1 => if C.fbmap then [] else pwriteMoves C back r0 r1
  | _, _ => []

end Blit

/-! ## The engine and the workers -/

/-- Where the threads are: the workers parked before the first frame, in front of the barrier, behind it, at the
pan of the first worker, or through with the frame. -/
inductive Phase
  | idle
  | expanding (todo : List (List (Move Loc UInt8)))
  | writing (todo : List (List (Move Loc UInt8)))
  | panning
  | done

structure St where
  mem : Mem
  snap : Frame
  pat : Patterns
  writeRows : List ℕ
  expandRow : ℕ → Bool
  wasChanged : ℕ → Bool
  back : ℕ
  yoffset : ℕ
  colors : Palette
  paletteChanged : Bool
  phase : Phase
  /-- The frame that was drawn last, and the palette at that time. -/
  frame : Frame
  palette : Palette

section Step

variable (C : Setup)

/-- The first pass of `DG_Init` over the framebuffer: `framebuf` is all zero. -/
def letterbox : List (Move Loc UInt8) :=
  let step := resY * C.scale
  (List.range ((C.letterboxLines + step - 1) / step)).flatMap fun k =>
    (List.range (min (C.letterboxLines - k * step) step * C.lineLength)).map fun j =>
      ⟨.screen (k * step * C.lineLength + j), .inr (.framebuf j)⟩

/-- The arrays are zero, and the framebuffer has what it had. -/
def cleared (content : ℕ → UInt8) : Mem
  | .prev _ => 0
  | .framebuf _ => 0
  | .screen i => content i

/-- `DG_Init`; the engine has not set a palette. -/
def init (content : ℕ → UInt8) : St where
  mem := moved (letterbox C) (cleared content)
  snap := fun _ _ => 0
  pat := fun _ _ => 0
  writeRows := []
  expandRow := fun _ => false
  wasChanged := fun _ => false
  back := C.backFirst
  yoffset := 0
  colors := fun _ => ⟨0, 0, 0⟩
  paletteChanged := false
  phase := .idle
  frame := fun _ _ => 0
  palette := fun _ => ⟨0, 0, 0⟩

/-- `pat` after a change of the palette. -/
def repattern (colors : Palette) (pat : Patterns) : Patterns := fun i b =>
  if b < C.scale3 then (colors i).byte (b % 3) else pat i b

/-- `changed` for a row. -/
def changed (s : St) (frame : Frame) (y : ℕ) : Bool :=
  s.paletteChanged || (List.range resX).any fun x => frame y x ≠ s.mem (.prev (y * resX + x))

/-- `DG_DrawFrame`, from the `done` barrier to the `start` barrier; a turn of its loop is about its own row
only. -/
def drawFrame (s : St) (frame : Frame) : St :=
  let pat := if s.paletteChanged then repattern C s.colors s.pat else s.pat
  let snap := fun y => if changed s frame y then frame y else s.snap y
  let writeRows := (List.range resY).filter fun y => changed s frame y || (C.flip && s.wasChanged y)
  { s with
    pat, snap, writeRows
    paletteChanged := false
    expandRow := changed s frame
    wasChanged := changed s frame
    phase := .expanding ((List.range C.nworkers).map fun wi =>
      expandBand C snap pat (changed s frame) (band writeRows C.nworkers wi))
    frame
    palette := s.colors }

inductive Event
  /-- The engine sets a palette. -/
  | palette (colors : Palette)
  /-- The engine calls `DG_DrawFrame`. -/
  | draw (frame : Frame)
  /-- A worker stores its next byte. -/
  | work (wi : ℕ)
  /-- All workers have come to a barrier. -/
  | barrier
  /-- The first worker pans. -/
  | pan

/-- The worker's next store. -/
def work (todo : List (List (Move Loc UInt8))) (wi : ℕ) : Option (Move Loc UInt8 × List (List (Move Loc UInt8))) :=
  match todo[wi]? with
  | some (a :: rest) => some (a, todo.set wi rest)
  | _ => none

def step (s : St) : Event → Option St
  | .palette colors => some { s with colors, paletteChanged := true }
  | .draw frame =>
    match s.phase with
    | .idle => some (drawFrame C s frame)
    | .done => some (drawFrame C s frame)
    | _ => none
  | .work wi =>
    match s.phase with
    | .expanding todo => (work todo wi).map fun r => { s with mem := r.1.apply s.mem, phase := .expanding r.2 }
    | .writing todo => (work todo wi).map fun r => { s with mem := r.1.apply s.mem, phase := .writing r.2 }
    | _ => none
  | .barrier =>
    match s.phase with
    | .expanding todo =>
      if todo.all List.isEmpty then
        some { s with phase := .writing ((List.range C.nworkers).map fun wi =>
          writeBand C s.back (band s.writeRows C.nworkers wi)) }
      else none
    | .writing todo =>
      if todo.all List.isEmpty then some { s with phase := if C.flip then .panning else .done } else none
    | _ => none
  | .pan =>
    match s.phase with
    | .panning => some { s with yoffset := s.back * C.yres, back := s.back ^^^ 1, phase := .done }
    | _ => none

end Step

end Soceteer.Doom
