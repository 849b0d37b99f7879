import KTeamOS.LTS.Basic
import KTeamOS.Links.Basic
import KTeamOS.Gui.ImageList
import KTeamOS.Gui.Order
import KTeamOS.Gui.Stack
import KTeamOS.Word.Signed
import KTeamOS.Gui.Block
import KTeamOS.Gui.Draw
import KTeamOS.Gui.Save
import KTeamOS.Gui.Planes
import KTeamOS.Gui.Drag
import KTeamOS.Gui.Click
import KTeamOS.Gui.Paint
import KTeamOS.Heap.Malloc
import KTeamOS.Heap.Layout
import KTeamOS.Heap.Disjoint
import KTeamOS.Heap.ListPage
import KTeamOS.Heap.Gaps
import KTeamOS.Heap.Failure
import KTeamOS.Buffer.Basic
import KTeamOS.Buffer.Overlay
import KTeamOS.Terminal.Line
import KTeamOS.Terminal.Keys
import KTeamOS.Terminal.Keyboard
import KTeamOS.Terminal.Bounds
import KTeamOS.Terminal.Editor
import KTeamOS.Terminal.Typing
import KTeamOS.Terminal.Read
import KTeamOS.Terminal.Completion
import KTeamOS.Terminal.History
import KTeamOS.Terminal.Recall
import KTeamOS.Terminal.Session
import KTeamOS.Terminal.Page
import KTeamOS.Terminal.Cursor
import KTeamOS.Terminal.Display
import KTeamOS.Text.Rows
import KTeamOS.Terminal.Output
import KTeamOS.Terminal.Desktop
import KTeamOS.Pacman.Maze
import KTeamOS.Pacman.Game
import KTeamOS.Pacman.Streets
import KTeamOS.Pacman.Steering
import KTeamOS.File.Image
import KTeamOS.File.Read
import KTeamOS.File.Name
import KTeamOS.File.Descriptor
import KTeamOS.File.Allocator
import KTeamOS.File.Session
import KTeamOS.File.Directory
import KTeamOS.File.Access
import KTeamOS.System.Kernel
import KTeamOS.System.Step
import KTeamOS.System.Chain
import KTeamOS.System.Schedule
import KTeamOS.System.Vidmap
import KTeamOS.System.Args
import KTeamOS.System.Command
import KTeamOS.System.Nested
import KTeamOS.System.Lookup
import KTeamOS.System.Load
import KTeamOS.LTS.Confluence
import KTeamOS.Chat.Program
import KTeamOS.Chat.Handshake
import KTeamOS.Chat.Conversation
import KTeamOS.Chat.Exit
import KTeamOS.LTS.Duplex
import KTeamOS.Chat.Transfer
import KTeamOS.Heap.Address
import KTeamOS.Gui.Font
import KTeamOS.Gui.Clock
import KTeamOS.Fish.Blink
import KTeamOS.Text.Printf
import KTeamOS.LTS.Refinement
import KTeamOS.Text.Lines
import KTeamOS.Fish.Lamps
import KTeamOS.Fish.Schedule
import KTeamOS.Fish.Frames
import KTeamOS.Fish.Main
import KTeamOS.LTS.Client
import KTeamOS.File.Alone
import KTeamOS.Programs.Reading
import KTeamOS.Programs.Cat
import KTeamOS.Programs.Support
import KTeamOS.Programs.Search
import KTeamOS.Programs.Grep
import KTeamOS.Mmu.Walk
import KTeamOS.Paging.Tables
import KTeamOS.Paging.Space
import KTeamOS.Paging.Represents
import KTeamOS.Paging.Isolation
import KTeamOS.X86.Cpu
import KTeamOS.X86.Strings
import KTeamOS.Memory.Memset
import KTeamOS.Memory.Memcpy
import KTeamOS.Memory.Memmove
import KTeamOS.Memory.Paged
import KTeamOS.X86.System
import KTeamOS.X86.Agree
import KTeamOS.Entry.Syscall
import KTeamOS.Entry.Interrupt
import KTeamOS.Entry.Process
