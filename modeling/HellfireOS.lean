import HellfireOS.Loop
import HellfireOS.Word
import HellfireOS.Multiply
import HellfireOS.Division
import HellfireOS.Divide32
import HellfireOS.Divide64
import HellfireOS.Shift64
import HellfireOS.Itoa
import HellfireOS.Print
import HellfireOS.Printf
import HellfireOS.Budget
import HellfireOS.PollingServer
import HellfireOS.Memory
import HellfireOS.Compare
import HellfireOS.Strings
import HellfireOS.Strtol
import HellfireOS.Strtok
import HellfireOS.Strsep
import HellfireOS.SoftFloat
import HellfireOS.Hexdump
import HellfireOS.Random
import HellfireOS.FloatArith
import HellfireOS.FloatAdd
