import Nemu.Memory.Hwaddr
import Nemu.Memory.Coherence
import Nemu.Memory.Access
import Nemu.Memory.FlatMemory
import Nemu.Kernel.Loader
import Nemu.Kernel.Disk
import Nemu.Kernel.DiskCache
import Nemu.Kernel.IrqHandle
import Nemu.Kernel.ByteDisk
import Nemu.Kernel.PageTables
import Nemu.Cpu.Machine
import Nemu.Cpu.Arith
import Nemu.Cpu.Exec
import Nemu.Cpu.Compare
import Nemu.Cpu.Frame
import Nemu.Cpu.MultiWord
import Nemu.Cpu.SegCache
import Nemu.Cpu.Lengths
import Nemu.Cpu.IntrMask
import Nemu.Cpu.OperandSize
import Nemu.Cpu.Division
import Nemu.Cpu.Shifts
import Nemu.Cpu.FlagFrame
import Nemu.Cpu.Branches
import Nemu.Cpu.Stack
import Nemu.Cpu.PushPop
import Nemu.Cpu.BitTest
import Nemu.Cpu.Strings
import Nemu.Cpu.Address
import Nemu.Cpu.Multiply
import Nemu.Cpu.Shrd
import Nemu.Cpu.Negate
import Nemu.Cpu.Vectoring
import Nemu.Cpu.Halt
import Nemu.Cpu.Calls
import Nemu.Cpu.Leftovers
import Nemu.Device.I8259
import Nemu.Device.BusMaster
import Nemu.Device.Vga
import Nemu.Device.VgaPorts
import Nemu.Monitor.Watchpoint
import Nemu.Monitor.CpuExec
import Nemu.Monitor.ExprHistory
import Nemu.Monitor.ExprLogic
import Nemu.Monitor.ExprErrors
import Nemu.Monitor.Backtrace
import Nemu.Memory.Paging
import Nemu.Memory.PageCross
import Nemu.Memory.Bytewise
import Nemu.Cpu.Trap
import Nemu.Cpu.TrapFrame
import Nemu.Float.Divide
import Nemu.Float.Convert
import Nemu.Float.Sqrt
import Nemu.Float.Pow
import Nemu.Float.Format
import Nemu.Game.LinkList
import Nemu.Game.Letters
import Nemu.Memory.Directory
import Nemu.Memory.Touches
import Nemu.Memory.WorkingSet
import Nemu.Monitor.ExprBuffers
import Nemu.Game.MainLoop
import Nemu.Kernel.Syscall
import Nemu.System.Transparent
import Nemu.Game.Rle
