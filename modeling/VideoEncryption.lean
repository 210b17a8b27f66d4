import VideoEncryption.Clocked.Machine
import VideoEncryption.Clocked.Word
import VideoEncryption.Diag.Blocks
import VideoEncryption.Diag.Diagonals
import VideoEncryption.Diag.Finish
import VideoEncryption.Key.Delivery
import VideoEncryption.Key.Diagonal
import VideoEncryption.Key.Liveness
import VideoEncryption.Live.Display
import VideoEncryption.Live.Frame
import VideoEncryption.Live.Keystream
import VideoEncryption.Live.KnownPixels
import VideoEncryption.Live.Period
import VideoEncryption.Live.RoundTrip
import VideoEncryption.Live.Stream
import VideoEncryption.Sccb.Drive
import VideoEncryption.Sccb.Program
import VideoEncryption.Sccb.Recovery
import VideoEncryption.Sccb.Wire
import VideoEncryption.Sram.Bus
import VideoEncryption.Sram.Clocks
import VideoEncryption.Sram.Screen
import VideoEncryption.Sram.Session
import VideoEncryption.Sram.Weakness
import VideoEncryption.Subkey.WeakKeys
import VideoEncryption.Top.Keyboard
