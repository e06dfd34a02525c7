import Frod.Boot.Frames
import Frod.Boot.Init
import Frod.Boot.Model
import Frod.Boot.Modules
import Frod.Boot.Walks
import Frod.Boot.Words
import Frod.Dllist.Find
import Frod.Dllist.Model
import Frod.Dllist.Order
import Frod.Dllist.Ring
import Frod.Heap.Admit
import Frod.Heap.Align
import Frod.Heap.Backed
import Frod.Heap.Blocks
import Frod.Heap.Grow
import Frod.Heap.Links
import Frod.Heap.Magic
import Frod.Heap.Model
import Frod.Heap.Range
import Frod.Heap.Rep
import Frod.Heap.Reuse
import Frod.Heap.Ring
import Frod.Heap.Run
import Frod.Heap.Terminate
import Frod.Intr.Stub
import Frod.Intr.Switch
import Frod.Intr.Transparent
import Frod.Irq.Drivers
import Frod.Irq.Idt
import Frod.Irq.Lines
import Frod.Irq.Pic
import Frod.Kbd.Complete
import Frod.Kbd.Console
import Frod.Kbd.Decode
import Frod.Kbd.Keyset
import Frod.Kbd.Refs
import Frod.Kbd.Resync
import Frod.Kernel.Leak
import Frod.Kernel.Model
import Frod.Kernel.Stack
import Frod.Layout
import Frod.Lib.BitArray
import Frod.Lib.Bytes
import Frod.Lib.Countdown
import Frod.Lib.Interleave
import Frod.Lib.Machine
import Frod.Lib.Path
import Frod.Lib.Tiling
import Frod.Lib.Walk
import Frod.Lock.Model
import Frod.Lock.Safe
import Frod.Pit.Wait
import Frod.Pmm.Alloc
import Frod.Pmm.Buffer
import Frod.Pmm.Entries
import Frod.Pmm.Exact
import Frod.Pmm.FirstFit
import Frod.Pmm.Init
import Frod.Pmm.Mark
import Frod.Pmm.Pass
import Frod.Pmm.Place
import Frod.Pmm.Run
import Frod.Pmm.Unusable
import Frod.Printf.Emit
import Frod.Printf.Items
import Frod.Printf.Model
import Frod.Printf.Number
import Frod.Printf.Output
import Frod.Printf.Refine
import Frod.Printf.Spec
import Frod.Proc.Lost
import Frod.Proc.Model
import Frod.Proc.Pages
import Frod.Proc.Run
import Frod.Ps2.Init
import Frod.Ps2.Model
import Frod.Ps2.Send
import Frod.Smp.Discover
import Frod.Smp.Handshake
import Frod.Smp.Model
import Frod.Smp.Own
import Frod.Smp.Rsdp
import Frod.Smp.Start
import Frod.Smp.Turns
import Frod.Str.Compare
import Frod.Str.Copy
import Frod.Str.Move
import Frod.Uart.Serial
import Frod.Vga.Backspace
import Frod.Vga.Model
import Frod.Vga.Text
import Frod.Vmm.Accounts
import Frod.Vmm.AddressSpace
import Frod.Vmm.Agree
import Frod.Vmm.Boot
import Frod.Vmm.Entry
import Frod.Vmm.Fail
import Frod.Vmm.Freed
import Frod.Vmm.Model
import Frod.Vmm.Perm
import Frod.Vmm.Reach
import Frod.Vmm.Refine
import Frod.Vmm.SpaceRun
import Frod.Vmm.Spaces
import Frod.Vmm.Tables
import Frod.Vmm.Tlb
import Frod.Vmm.Update
import Frod.Vmm.Window
