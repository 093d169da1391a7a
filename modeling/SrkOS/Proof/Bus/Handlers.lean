import SrkOS.Framework.Register
import SrkOS.Impl.Tasks

/-!
# The handlers are registers

Each of the three handlers overwrites its state with what the commands of its
own kind say and ignores the others: the last of them wins. So the states
depend on the order of the commands of each kind only (`last_writer_wins`), not
on how the kinds are interleaved.
-/

namespace SrkOS.Proof.Bus

open Framework SrkOS.Impl

/-- The kinds of commands. -/
inductive Kind
  | setFaceExpression
  | moveServo
  | streamAudio
  | streamVideo
  deriving DecidableEq, Repr

def kindOf : Command → Kind
  | .setFaceExpression _ => .setFaceExpression
  | .moveServo _ _ => .moveServo
  | .streamAudio _ => .streamAudio
  | .streamVideo _ => .streamVideo

/-- The commands of a kind, in their order. -/
def ofKind (kind : Kind) (cmds : List Command) : List Command := cmds.filter (kindOf · = kind)

/-- The same commands of each kind in the same order, but for servo commands. -/
def SameOrder (cmds cmds' : List Command) : Prop :=
  ∀ kind, kind ≠ .moveServo → ofKind kind cmds = ofKind kind cmds'

/-- The expression of a `SetFaceExpression`. -/
def faceOf : Command → Option Expression
  | .setFaceExpression expr => some expr
  | _ => none

/-- The flag of a `StreamVideo`. -/
def videoOf : Command → Option Bool
  | .streamVideo on => some on
  | _ => none

/-- The flag of a `StreamAudio`. -/
def audioOf : Command → Option Bool
  | .streamAudio on => some on
  | _ => none

/-- What the last command that `pick` picks something from says. -/
def lastOf {α : Type} (pick : Command → Option α) (cmds : List Command) : Option α :=
  (cmds.filterMap pick).getLast?

/-! ## Registers -/

def cameraStateOf (on : Bool) : CameraState := if on then .streaming else .idle

def audioStateOf (on : Bool) : AudioState := if on then .streaming else .idle

theorem handleCommand_overwrites :
    Overwrites handleCommand fun cmd => (faceOf cmd).map .face := by
  intro state cmd
  cases cmd <;> rfl

theorem handleCameraCommand_overwrites :
    Overwrites handleCameraCommand fun cmd => (videoOf cmd).map cameraStateOf := by
  intro state cmd
  cases cmd with
  | streamVideo on => cases on <;> rfl
  | setFaceExpression | moveServo | streamAudio => rfl

theorem handleAudioCommand_overwrites :
    Overwrites handleAudioCommand fun cmd => (audioOf cmd).map audioStateOf := by
  intro state cmd
  cases cmd with
  | streamAudio on => cases on <;> rfl
  | setFaceExpression | moveServo | streamVideo => rfl

/-- A register over the commands that `pick` picks from holds what the last of
them says. -/
theorem foldl_lastOf {σ α : Type} {f : σ → Command → σ} {pick : Command → Option α} {g : α → σ}
    (h : Overwrites f fun cmd => (pick cmd).map g) (s : σ) (cmds : List Command) :
    cmds.foldl f s = ((lastOf pick cmds).map g).getD s := by
  have hpick : cmds.filterMap (fun cmd => (pick cmd).map g) = (cmds.filterMap pick).map g :=
    List.map_filterMap.symm
  rw [h.foldl, hpick, List.getLast?_map, lastOf]

/-- A register over a kind of commands depends on these only. -/
theorem foldl_ofKind {σ : Type} {f : σ → Command → σ} {write : Command → Option σ}
    (h : Overwrites f write) {kind : Kind} (hk : ∀ cmd, kindOf cmd ≠ kind → write cmd = none)
    {cmds cmds' : List Command} (he : ofKind kind cmds = ofKind kind cmds') (s : σ) :
    cmds.foldl f s = cmds'.foldl f s := by
  have hkind : ∀ cmds : List Command, (ofKind kind cmds).filterMap write = cmds.filterMap write :=
    filterMap_filter_of fun cmd hc => hk cmd (of_decide_eq_false hc)
  apply h.foldl_congr
  rw [← hkind cmds, he, hkind cmds']

/-- After any commands, each state is that of the last command of its kind; and
the states are the same after the same commands of each kind in the same order,
whatever their interleaving and the servo commands among them. -/
theorem last_writer_wins (cmds : List Command) (oled : OledState) (camera : CameraState)
    (audio : AudioState) :
    cmds.foldl handleCommand oled =
      (match lastOf faceOf cmds with
        | some expr => .face expr
        | none => oled) ∧
    cmds.foldl handleCameraCommand camera =
      (match lastOf videoOf cmds with
        | some true => .streaming
        | some false => .idle
        | none => camera) ∧
    cmds.foldl handleAudioCommand audio =
      (match lastOf audioOf cmds with
        | some true => .streaming
        | some false => .idle
        | none => audio) ∧
    ∀ cmds', SameOrder cmds cmds' →
      cmds.foldl handleCommand oled = cmds'.foldl handleCommand oled ∧
      cmds.foldl handleCameraCommand camera = cmds'.foldl handleCameraCommand camera ∧
      cmds.foldl handleAudioCommand audio = cmds'.foldl handleAudioCommand audio := by
  refine ⟨?_, ?_, ?_, fun cmds' hs => ⟨?_, ?_, ?_⟩⟩
  · rw [foldl_lastOf handleCommand_overwrites]
    cases lastOf faceOf cmds <;> rfl
  · rw [foldl_lastOf handleCameraCommand_overwrites]
    rcases lastOf videoOf cmds with _ | _ | _ <;> rfl
  · rw [foldl_lastOf handleAudioCommand_overwrites]
    rcases lastOf audioOf cmds with _ | _ | _ <;> rfl
  · refine foldl_ofKind handleCommand_overwrites (fun cmd hk => ?_)
      (hs .setFaceExpression (by decide)) oled
    cases cmd <;> first | rfl | exact absurd rfl hk
  · refine foldl_ofKind handleCameraCommand_overwrites (fun cmd hk => ?_)
      (hs .streamVideo (by decide)) camera
    cases cmd <;> first | rfl | exact absurd rfl hk
  · refine foldl_ofKind handleAudioCommand_overwrites (fun cmd hk => ?_)
      (hs .streamAudio (by decide)) audio
    cases cmd <;> first | rfl | exact absurd rfl hk

/-- Two producers' commands in two interleavings, a servo command in one of them. -/
theorem two_interleavings :
    [.streamVideo true, .setFaceExpression .sad, .moveServo 0 90, .setFaceExpression .happy].foldl
        handleCommand .blank =
      [.setFaceExpression .sad, .setFaceExpression .happy, .streamVideo true].foldl
        handleCommand .blank := by
  have hs : SameOrder
      [.streamVideo true, .setFaceExpression .sad, .moveServo 0 90, .setFaceExpression .happy]
      [.setFaceExpression .sad, .setFaceExpression .happy, .streamVideo true] := by
    intro kind hk
    cases kind <;> first | rfl | exact absurd rfl hk
  exact ((last_writer_wins _ .blank .idle .idle).2.2.2 _ hs).1

end SrkOS.Proof.Bus
