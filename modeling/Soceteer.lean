import Soceteer.Lib.Bits
import Soceteer.Lib.Jvm
import Soceteer.Lib.Bytes
import Soceteer.Lib.Text
import Soceteer.Lib.Scan
import Soceteer.Lib.Round
import Soceteer.Lib.Cint
import Soceteer.Lib.Ranges
import Soceteer.Lib.Insertion
import Soceteer.Lib.LinkedMap
import Soceteer.Lib.Cells
import Soceteer.Lib.Raster
import Soceteer.Lib.Prog
import Soceteer.Lib.Wp
import Soceteer.Lib.Redirect
import Soceteer.Lib.Run
import Soceteer.Lib.Trace
import Soceteer.Lib.Moves
import Soceteer.Lib.Clocked
import Soceteer.Lib.Packer
import Soceteer.Lib.Ring
import Soceteer.Lib.Crc
import Soceteer.Lib.Rtl
import Soceteer.Mem.Geometry
import Soceteer.Mem.Deinterleaver
import Soceteer.Mem.Classify
import Soceteer.Mem.Ports
import Soceteer.Mem.Layout
import Soceteer.Mem.Limit
import Soceteer.MemGen.Emit
import Soceteer.MemGen.Refine
import Soceteer.MemGen.Parse
import Soceteer.Bd.Graph
import Soceteer.Bd.Consistent
import Soceteer.Bd.Connect
import Soceteer.Bd.Slices
import Soceteer.Bd.PortMappings
import Soceteer.Clk.Wzrd
import Soceteer.Clk.Rest
import Soceteer.Clk.Mmcm
import Soceteer.Clk.Closest
import Soceteer.Clk.Words
import Soceteer.Video.Timing
import Soceteer.Video.Cvt
import Soceteer.Video.Fbmode
import Soceteer.Dp.Mode
import Soceteer.Dp.Switch
import Soceteer.Dp.Start
import Soceteer.Dp.Var
import Soceteer.Dp.Registers
import Soceteer.Dp.Request
import Soceteer.Dp.Again
import Soceteer.Dp.Shape
import Soceteer.Dp.Fb
import Soceteer.Dp.Draw
import Soceteer.Dp.Defio
import Soceteer.Soctfb.Draw
import Soceteer.Fbimg.Scale
import Soceteer.Doom.Blit
import Soceteer.Doom.Rows
import Soceteer.Doom.Shows
import Soceteer.Fesvr.Rv
import Soceteer.Fesvr.DebugModule
import Soceteer.Fesvr.Dtm
import Soceteer.Fesvr.Command
import Soceteer.Fesvr.Harts
import Soceteer.Fesvr.Chunk
import Soceteer.Fesvr.ChunkSize
import Soceteer.Fesvr.Memif
import Soceteer.Fesvr.Tick
import Soceteer.Htif.Mailbox
import Soceteer.Htif.Stage
import Soceteer.Htif.Agreement
import Soceteer.Htif.Probe
import Soceteer.Htif.Command
import Soceteer.Elf.Loader
import Soceteer.Elf.Parts
import Soceteer.Elf.Correct
import Soceteer.Elf.Safe
import Soceteer.Boot.Rom
import Soceteer.Boot.Piece
import Soceteer.Boot.Load
import Soceteer.Boot.Confine
import Soceteer.Glue.Dtb
import Soceteer.Glue.Sbrk
import Soceteer.Glue.Reads
import Soceteer.Glue.Uart
import Soceteer.Glue.Mainvars
import Soceteer.Stdio.Printbuf
import Soceteer.Stdio.Vxprintf
import Soceteer.Stdio.Iso
import Soceteer.Stdio.Scan
import Soceteer.Stdio.Fields
import Soceteer.Stdio.Conform
import Soceteer.Memtest.Sweep
import Soceteer.Memtest.Probe
import Soceteer.Memtest.Ranges
import Soceteer.Usb.Events
import Soceteer.Sdc.Driver
import Soceteer.Sdc.Transfer
import Soceteer.Sdhost.Crc
import Soceteer.Sdhost.CmdSerial
import Soceteer.Sdhost.Cmd
import Soceteer.Sdhost.DataSerial
import Soceteer.Sdhost.DataRead
import Soceteer.Sdhost.DataWrite
import Soceteer.Sdhost.Card
import Soceteer.Sdhost.Fifo
import Soceteer.Sdhost.Dma
import Soceteer.Sdhost.DmaRx
import Soceteer.Sdhost.DmaTx
import Soceteer.Sdhost.DataMaster
import Soceteer.Sdhost.DataPath
import Soceteer.Sdhost.DataFetch
import Soceteer.Sdhost.DataSend
