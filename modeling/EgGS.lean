import EgGS.Block.Cause
import EgGS.Block.Chs
import EgGS.Block.Effect
import EgGS.Block.Exact
import EgGS.Block.Frame
import EgGS.Block.Micro
import EgGS.Block.NullSafety
import EgGS.Block.Order
import EgGS.Block.Partition
import EgGS.Block.Pool
import EgGS.Block.Progress
import EgGS.Block.ReadsFirst
import EgGS.Block.Runs
import EgGS.Block.Service
import EgGS.Block.Steps
import EgGS.Block.Submit
import EgGS.Block.Success
import EgGS.Block.Transfer
import EgGS.Block.Waiting
import EgGS.Cache.Access
import EgGS.Cache.Coherence
import EgGS.Cache.Confined
import EgGS.Cache.Counts
import EgGS.Cache.Create
import EgGS.Cache.Faulty
import EgGS.Cache.Flags
import EgGS.Cache.Fuel
import EgGS.Cache.Hits
import EgGS.Cache.Layout
import EgGS.Cache.Links
import EgGS.Cache.Loss
import EgGS.Cache.Mapped
import EgGS.Cache.Pages
import EgGS.Cache.Prefetch
import EgGS.Cache.Ready
import EgGS.Cache.Recycle
import EgGS.Cache.Relink
import EgGS.Cache.Runs
import EgGS.Cache.Steps
import EgGS.Cache.Stops
import EgGS.Cache.Stores
import EgGS.Fs.Balance
import EgGS.Fs.Bitmaps
import EgGS.Fs.Directory
import EgGS.Fs.Drives
import EgGS.Fs.Exclusion
import EgGS.Fs.Files
import EgGS.Fs.FreeCounts
import EgGS.Fs.Fuel
import EgGS.Fs.FullDevice
import EgGS.Fs.Grow
import EgGS.Fs.Identity
import EgGS.Fs.InodeCache
import EgGS.Fs.Inodes
import EgGS.Fs.Interrupts
import EgGS.Fs.Locate
import EgGS.Fs.Locks
import EgGS.Fs.Maps
import EgGS.Fs.Messages
import EgGS.Fs.Mounting
import EgGS.Fs.Refinement
import EgGS.Fs.Resolve
import EgGS.Fs.Runs
import EgGS.Fs.Scan
import EgGS.Fs.Steps
import EgGS.Fs.Stops
import EgGS.Fs.Table
import EgGS.Fs.Tree
import EgGS.Fs.Truncate
import EgGS.Fs.Volume
import EgGS.Fs.Walk
import EgGS.Fs.WriteBack
import EgGS.Irq.Atomic
import EgGS.Irq.Clock
import EgGS.Irq.Dispatch
import EgGS.Irq.Frames
import EgGS.Irq.Tables
import EgGS.Lib.Bits
import EgGS.Lib.Does
import EgGS.Lib.Drain
import EgGS.Lib.Elevator
import EgGS.Lib.Files
import EgGS.Lib.Linked
import EgGS.Lib.Machine
import EgGS.Lib.Memory
import EgGS.Lib.Prog
import EgGS.Lib.Stable
import EgGS.Lib.WriteBack
import EgGS.Model.Blk
import EgGS.Model.Buffer
import EgGS.Model.Hd
import EgGS.Model.Inode
import EgGS.Model.Irq
import EgGS.Model.Mount
import EgGS.Model.Page
import EgGS.Model.Path
import EgGS.Model.Pool
import EgGS.Model.Printf
import EgGS.Model.Screen
import EgGS.Model.Setup
import EgGS.Model.State
import EgGS.Model.Super
import EgGS.Model.Trap
import EgGS.Model.Zone
import EgGS.Paging.Frames
import EgGS.Paging.Map
import EgGS.Print.Format
import EgGS.Print.Number
import EgGS.Print.Scan
import EgGS.Print.Star
import EgGS.Print.Terminal
