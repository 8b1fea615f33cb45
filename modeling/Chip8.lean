import Chip8.Main
import Chip8.Proofs.Arguments
import Chip8.Proofs.Arithmetic
import Chip8.Proofs.Bounds
import Chip8.Proofs.Calls
import Chip8.Proofs.Families
import Chip8.Proofs.Flow
import Chip8.Proofs.Font
import Chip8.Proofs.Guards
import Chip8.Proofs.History
import Chip8.Proofs.Images
import Chip8.Proofs.Keys
import Chip8.Proofs.Numerals
import Chip8.Proofs.Order
import Chip8.Proofs.Pacing
import Chip8.Proofs.Readings
import Chip8.Proofs.Regions
import Chip8.Proofs.RegisterPanel
import Chip8.Proofs.SpriteWords
import Chip8.Proofs.StackPanel
import Chip8.Proofs.TimerRate
import Chip8.Proofs.Transfers
import Chip8.Proofs.Waiting
