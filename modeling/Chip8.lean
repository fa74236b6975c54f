import Chip8.Clock.Run
import Chip8.Display.Screen
import Chip8.Display.Traced
import Chip8.Keypad.Remote
import Chip8.Keypad.Traced
import Chip8.Proofs.MemoryRange
import Chip8.Proofs.Obstacle
import Chip8.Proofs.Table
import Chip8.Proofs.StepCases
import Chip8.Proofs.Bounds
import Chip8.Proofs.Subroutine
import Chip8.Proofs.Presses
import Chip8.Proofs.RemoteEvents
import Chip8.Proofs.ElapsedTime
import Chip8.Proofs.KeyWait
import Chip8.Proofs.Mail
import Chip8.Proofs.Rounds
import Chip8.Proofs.Likeness
import Chip8.Proofs.FreshStart
import Chip8.Proofs.LifeCycle
import Chip8.Proofs.UnseenPresses
import Chip8.Proofs.SignalOrder
import Chip8.Proofs.ProgramImage
import Chip8.Proofs.RandomNumbers
import Chip8.Proofs.Hooks
import Chip8.Proofs.RemotePlay
import Chip8.Proofs.MemoryUse
import Chip8.Proofs.Refit
import Chip8.Proofs.UnseenTime
import Chip8.Proofs.TickOrder
import Chip8.Proofs.DisplayReplay
import Chip8.Proofs.Drawing
import Chip8.Proofs.DrawOrder
import Chip8.Proofs.Assembly
import Chip8.Proofs.RegisterTransfer
import Chip8.Proofs.Speed
import Chip8.Proofs.LastingFault
import Chip8.Proofs.Logbook
import Chip8.Proofs.GuardedRun
import Chip8.Proofs.PressQueue
import Chip8.Proofs.ChangeMarker
import Chip8.Proofs.StackHistory
